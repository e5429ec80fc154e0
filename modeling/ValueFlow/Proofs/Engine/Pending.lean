import ValueFlow.Proofs.Engine.Deeds

/-!
# Pending work is not forgotten

Tokens that wait for an item are merged in silence: only the first of them queue the item. So an
item with tokens that is in no bag would swallow all that come later. This never happens
(`Moment.Tidy`): between two steps whatever waits is queued or in the bag of a round that is under
way, and so is every task. Collaborators may build, condense or begin rounds of their own as they
like, and may fail.

A round that fails puts back what it has not got to. The tokens of these items have not become fewer
in the meantime, as long as no cycles were condensed (`Agenda.Holds`): what runs in between never
gets hold of an item that is in the bag of the round.
-/

namespace ValueFlow

open ValueFlow.Flow

variable {ε τ σ : Type} [Ordered τ]

/-! ## 1. Agendas -/

/-- **Nothing is forgotten on the agenda**: what carries tokens, and every stored task, is queued or
in hand; tasks do not carry tokens. -/
structure Agenda.Tidy (a : Agenda τ) (inHand : WorkItem → Prop) (stored : TaskId → Prop) :
    Prop where
  kept : a.Kept inHand
  carries : ∀ {item delta}, a.delta? item = some delta → item.carriesTokens
  tasks : ∀ {id}, stored id → .task id ∈ a.next.present ∨ inHand (.task id)

namespace Agenda.Tidy

variable {a a' : Agenda τ} {inHand : WorkItem → Prop} {stored stored' : TaskId → Prop}
  {item : WorkItem} {bag rest : Bag WorkItem}

theorem empty (order : BagOrder) (inHand : WorkItem → Prop) :
    (Agenda.empty order : Agenda τ).Tidy inHand fun _ => False :=
  ⟨kept_empty order _, nofun, False.elim⟩

theorem mono {p q : WorkItem → Prop} (h : a.Tidy p stored) (hpq : ∀ item, p item → q item)
    (hstored : ∀ id, stored' id → stored id) : a.Tidy q stored' :=
  ⟨h.kept.mono hpq, h.carries, fun hid => (h.tasks (hstored _ hid)).imp_right (hpq _)⟩

theorem delta?_task (h : a.Tidy inHand stored) (id : TaskId) : a.delta? (.task id) = none := by
  cases hd : a.delta? (.task id) with
  | none => rfl
  | some tokens => cases h.carries hd

theorem collect (h : a.Tidy inHand stored) (item : WorkItem) :
    (a.collect item).2.Tidy inHand stored := by
  refine ⟨h.kept.collect fun _ _ => id, fun {item' delta} hd => ?_, h.tasks⟩
  rw [delta?_collect] at hd
  split at hd
  · cases hd
  · exact h.carries hd

theorem schedule (h : a.Tidy inHand stored) (id : TaskId) :
    (a.schedule (.task id)).2.Tidy inHand fun id' => id' = id ∨ stored id' := by
  refine ⟨h.kept.schedule _, h.carries, fun {id'} hid => ?_⟩
  rcases hid with rfl | hid
  · exact .inl (Bag.mem_present_add.mpr (.inl rfl))
  · exact (h.tasks hid).imp_left fun hq => Bag.mem_present_add.mpr (.inr hq)

theorem startRound (h : a.Tidy inHand stored) (hs : a.startRound = some (bag, a')) :
    bag.Sound ∧ a'.Tidy (fun item => item ∈ bag.present ∨ inHand item) stored := by
  obtain ⟨hsound, hkept⟩ := h.kept.startRound hs
  obtain ⟨rfl, rfl⟩ := startRound_eq_some hs
  exact ⟨hsound, hkept, h.carries, fun hid => .inr (h.tasks hid)⟩

theorem putBack (hb : bag.Sound)
    (h : a.Tidy (fun item => item ∈ bag.present ∨ inHand item) stored) :
    (a.putBack bag).Tidy inHand stored := by
  refine ⟨h.kept.putBack hb, h.carries, fun {id} hid => ?_⟩
  rw [mem_next_putBack hb]
  rcases h.tasks hid with hq | hq | hq
  · exact .inl (.inr hq)
  · exact .inl (.inl hq)
  · exact .inr hq

/-- An item that nothing waits for may leave the bag. -/
theorem take (hb : bag.Sound) (h : a.Tidy (fun item => item ∈ bag.present ∨ inHand item) stored)
    (ht : bag.take = (some item, rest)) (hd : a.delta? item = none)
    (hstored : ∀ id, stored' id → item ≠ .task id ∧ stored id) :
    a.Tidy (fun item => item ∈ rest.present ∨ inHand item) stored' := by
  obtain ⟨-, hrest, -⟩ := Bag.take_eq_some hb ht
  have hstays : ∀ x, x ≠ item → x ∈ bag.present ∨ inHand x → x ∈ rest.present ∨ inHand x :=
    fun x hne hx => hx.imp_left fun hx => (hrest x).mpr ⟨hne, hx⟩
  refine ⟨⟨h.kept.sound, fun {x delta} hx => ?_, h.kept.nonempty⟩, h.carries, fun {id} hid => ?_⟩
  · refine (h.kept.queued hx).imp_right (hstays x ?_)
    rintro rfl
    rw [hd] at hx
    cases hx
  · obtain ⟨hne, hid⟩ := hstored id hid
    exact (h.tasks hid).imp_right (hstays _ hne.symm)

end Agenda.Tidy

namespace Agenda

theorem lasting_tidy (inHand : WorkItem → Prop) (stored : TaskId → Prop) :
    Lasting fun a : Agenda τ => a.Tidy inHand stored := by
  refine ⟨⟨fun {a item} tokens hitem h => ?_⟩, fun {a} r h => ?_⟩
  · refine ⟨h.kept.post _ tokens, fun {item' delta} hd => ?_, fun hid =>
      (h.tasks hid).imp_left mem_next_post⟩
    by_cases hne : item = item'
    · exact hne ▸ hitem
    · rw [delta?_post_of_ne tokens hne] at hd
      exact h.carries hd
  · refine ⟨h.kept.withdraw _, fun {item' delta} hd => ?_, fun hid =>
      (h.tasks hid).imp_left ((lasting_task _).withdraw r)⟩
    rw [delta?_withdraw] at hd
    split at hd
    · cases hd
    · exact h.carries hd

end Agenda

/-! ## 2. Every step keeps the agenda tidy -/

/-- The item is in one of the bags. -/
def InBags (bags : List (Bag WorkItem)) (item : WorkItem) : Prop :=
  ∃ bag ∈ bags, item ∈ bag.present

theorem inBags_cons {bag : Bag WorkItem} {bags : List (Bag WorkItem)} :
    InBags (bag :: bags) = fun item => item ∈ bag.present ∨ InBags bags item := by
  funext item
  simp [InBags]

/-- **No work is forgotten between two steps.** -/
structure Moment.Tidy (m : Moment ε τ σ) : Prop where
  grouped : m.world.flow.graph.Grouped
  sound : ∀ bag ∈ m.bags, bag.Sound
  agenda : m.world.flow.agenda.Tidy (InBags m.bags)
    fun id => (m.world.engine.tasks.get? id).isSome

namespace Request

variable {w : World ε τ σ} {q : Request ε τ σ}

theorem tasks_perform (hpostpone : ∀ task, q ≠ .postpone task) (hreset : q ≠ .reset) :
    (q.perform w).engine.tasks = w.engine.tasks := by
  rcases q.staff_perform w with h | ⟨_, _, -, h⟩ | ⟨task, e, -⟩ | ⟨-, h⟩ | ⟨e, -⟩
  · exact congrArg Staff.tasks h
  · exact (congrArg Staff.tasks h :)
  · exact absurd e (hpostpone task)
  · exact (congrArg Staff.tasks h :)
  · exact absurd e hreset

theorem Asks.builds {op : Operation (Filter σ τ) τ} (h : q.Asks w op)
    (hpostpone : ∀ task, q ≠ .postpone task) (hreset : q ≠ .reset) : op.Builds := by
  cases h with
  | postpone task => exact hpostpone task rfl
  | reset => exact hreset rfl
  | _ => exact trivial

theorem grouped_perform (q : Request ε τ σ) (h : w.flow.graph.Grouped) :
    (q.perform w).flow.graph.Grouped := by
  rcases q.flow_perform w with hf | ⟨op, -, hdoes⟩
  · rw [hf]
    exact h
  · exact hdoes.grouped h

variable {P : Agenda τ → Prop}

theorem lasting_perform (hP : Agenda.Lasting P) (hgrouped : w.flow.graph.Grouped)
    (hpostpone : ∀ task, q ≠ .postpone task) (hreset : q ≠ .reset) (h : P w.flow.agenda) :
    P (q.perform w).flow.agenda := by
  rcases q.flow_perform w with hf | ⟨op, hasks, hdoes⟩
  · rw [hf]
    exact h
  · exact hdoes.lasting hP hgrouped (hasks.builds hpostpone hreset) h

/-- Without passes, whatever grows outlives the request. -/
theorem growing_perform (hP : Agenda.Growing P) (hpostpone : ∀ task, q ≠ .postpone task)
    (hreset : q ≠ .reset) (hcondense : q ≠ .condense) (hdue : q ≠ .condenseIfDue)
    (h : P w.flow.agenda) : P (q.perform w).flow.agenda := by
  rcases q.flow_perform w with hf | ⟨op, hasks, hdoes⟩
  · rw [hf]
    exact h
  · refine hdoes.growing hP (hasks.builds hpostpone hreset) (fun roots e => ?_) h
    subst e
    cases hasks with
    | condense => exact hcondense rfl
    | condenseIfDue => exact hdue rfl

end Request

namespace Moment.Tidy

variable {w : World ε τ σ} {bags : List (Bag WorkItem)} {bag rest : Bag WorkItem}
  {errands errands' : List (Errand τ)} {item : WorkItem}

theorem ask (h : Tidy ⟨w, bags, errands⟩) (q : Request ε τ σ) :
    Tidy ⟨q.perform w, bags, errands⟩ := by
  refine ⟨q.grouped_perform h.grouped, h.sound, ?_⟩
  by_cases hpostpone : ∃ task, q = .postpone task
  · obtain ⟨task, rfl⟩ := hpostpone
    refine (h.agenda.schedule w.engine.nextTask).mono (fun _ => id) fun id hid => ?_
    have hset : ((w.engine.tasks.set w.engine.nextTask task).get? id).isSome := hid
    rw [Table.get?_set] at hset
    split at hset
    · rename_i e
      exact .inl e.symm
    · exact .inr hset
  by_cases hreset : q = .reset
  · subst hreset
    exact (Agenda.Tidy.empty _ _).mono (fun _ => id) fun _ hid => by cases hid
  have hpostpone : ∀ task, q ≠ .postpone task := fun task e => hpostpone ⟨task, e⟩
  show (q.perform w).flow.agenda.Tidy (InBags bags)
    fun id => ((q.perform w).engine.tasks.get? id).isSome
  rw [q.tasks_perform hpostpone hreset]
  exact q.lasting_perform (Agenda.lasting_tidy _ _) h.grouped hpostpone hreset h.agenda

/-- An item that nothing waits for is taken out of the bag in hand. -/
theorem take {w' : World ε τ σ} (h : Tidy ⟨w, bag :: bags, errands⟩)
    (ht : bag.take = (some item, rest)) (hgraph : w'.flow.graph = w.flow.graph)
    (hagenda : w'.flow.agenda.Tidy (InBags (bag :: bags)) fun id => (w.engine.tasks.get? id).isSome)
    (hd : w'.flow.agenda.delta? item = none)
    (htasks : ∀ id, (w'.engine.tasks.get? id).isSome →
      item ≠ .task id ∧ (w.engine.tasks.get? id).isSome) : Tidy ⟨w', rest :: bags, errands'⟩ := by
  obtain ⟨hbag, hbags⟩ := List.forall_mem_cons.mp h.sound
  have hrest := (Bag.take_eq_some hbag ht).2.2
  refine ⟨hgraph ▸ h.grouped, List.forall_mem_cons.mpr ⟨hrest, hbags⟩, ?_⟩
  rw [inBags_cons] at hagenda
  show w'.flow.agenda.Tidy (InBags (rest :: bags)) _
  rw [inBags_cons]
  exact hagenda.take hbag ht hd htasks

theorem execute (h : Tidy ⟨w, bag :: bags, errands⟩) (ht : bag.take = (some item, rest))
    (hitem : item.carriesTokens) :
    Tidy ⟨w.setFlow (w.flow.execute w.sieve item).2, rest :: bags, errands'⟩ := by
  have htaken : Tidy ⟨w.setFlow { w.flow with agenda := (w.flow.agenda.collect item).2 },
      rest :: bags, errands'⟩ := by
    refine h.take ht rfl (h.agenda.collect item) ?_ fun id hid => ⟨?_, hid⟩
    · exact Agenda.delta?_collect.trans (if_pos rfl)
    · rintro rfl
      cases hitem
  refine execute_cases (P := fun f => Tidy ⟨w.setFlow f, rest :: bags, errands'⟩) item
    (fun _ => htaken) fun n tokens _ _ => ⟨grouped_deliver htaken.grouped n tokens, htaken.sound, ?_⟩
  exact growing_deliver (Agenda.lasting_tidy _ _).toGrowing htaken.agenda

end Moment.Tidy

variable [DecidableEq ε] {m m' : Moment ε τ σ} {d : Deed ε τ σ} {log : List (Entry ε τ σ)}

/-- **Every step keeps the agenda tidy**, whatever is asked. -/
theorem Step.tidy (h : Step m d m') (hm : m.Tidy) : m'.Tidy := by
  cases h with
  | ask q => exact hm.ask q
  | discover _ hfind _ hcreate =>
    subst hcreate
    obtain ⟨labels, _, hcreate⟩ := World.create_eq _ hfind
    rw [hcreate]
    exact ⟨hm.grouped.addNodes labels, hm.sound, hm.agenda⟩
  | look | discovered | answer | heard => exact ⟨hm.grouped, hm.sound, hm.agenda⟩
  | beginRound hbag =>
    obtain ⟨hsound, hagenda⟩ := hm.agenda.startRound hbag
    refine ⟨hm.grouped, List.forall_mem_cons.mpr ⟨hsound, hm.sound⟩, ?_⟩
    rw [← inBags_cons] at hagenda
    exact hagenda
  | @skip w bag rest bags errands item htake hdone =>
    have hd : w.flow.agenda.delta? item = none := by
      cases item with
      | send | notify => exact hdone
      | task id => exact hm.agenda.delta?_task id
    refine hm.take htake rfl hm.agenda hd fun id hid => ⟨?_, hid⟩
    rintro rfl
    have hnone : w.engine.tasks.get? id = none := hdone
    rw [hnone] at hid
    cases hid
  | send htake => exact hm.execute htake rfl
  | hear htake => exact hm.execute htake rfl
  | lose htake => exact hm.execute htake rfl
  | @work w bag rest bags errands id task htake htask =>
    refine hm.take htake rfl hm.agenda (hm.agenda.delta?_task id) fun id' hid => ?_
    have herase : ((w.engine.tasks.erase id).get? id').isSome := hid
    rw [Table.get?_erase] at herase
    split at herase
    · cases herase
    · rename_i hne
      exact ⟨fun e => hne (WorkItem.task.inj e), herase⟩
  | @giveBack _ _ _ _ _ _ tokens =>
    exact ⟨hm.grouped, hm.sound, (Agenda.lasting_tidy _ _).post tokens rfl hm.agenda⟩
  | @finish w bag bags errands executed hend =>
    obtain ⟨hbag, hbags⟩ := List.forall_mem_cons.mp hm.sound
    have hnil := Bag.take_eq_none hbag hend
    refine ⟨hm.grouped, hbags, hm.agenda.mono (fun item hitem => ?_) fun _ => id⟩
    rw [inBags_cons, hnil] at hitem
    exact hitem.resolve_left List.not_mem_nil
  | @breakOff w bag bags errands executed failure =>
    obtain ⟨hbag, hbags⟩ := List.forall_mem_cons.mp hm.sound
    have hagenda := hm.agenda
    rw [inBags_cons] at hagenda
    exact ⟨hm.grouped, hbags, hagenda.putBack hbag⟩

theorem Course.tidy (h : Course m log m') (hm : m.Tidy) : m'.Tidy := by
  induction h with
  | nil => exact hm
  | cons hstep _ ih => exact ih (hstep.tidy hm)

/-! ## 3. Items that a round has not got to -/

/-- **The item is not queued, and at least these tokens wait for it.** -/
structure Agenda.Holds (a : Agenda τ) (item : WorkItem) (tokens : TokenSet τ) : Prop where
  unqueued : item ∉ a.next.present
  waiting : ∃ delta, a.delta? item = some delta ∧ ∀ t ∈ tokens, t ∈ delta

namespace Agenda

variable {a : Agenda τ} {item item' : WorkItem} {tokens : TokenSet τ}

/-- Where tokens wait, more of them only add to them. -/
theorem growing_holds (item : WorkItem) (tokens : TokenSet τ) :
    Growing fun a : Agenda τ => a.Holds item tokens := by
  refine ⟨fun {a item'} new _ h => ?_⟩
  obtain ⟨delta, hd, hsub⟩ := h.waiting
  by_cases hempty : new.isEmpty = true
  · rw [post_of_isEmpty hempty]
    exact h
  have hempty : new.isEmpty = false := by simpa using hempty
  by_cases hne : item' = item
  · subst hne
    refine ⟨?_, delta ∪ new, ?_, fun t ht => SortedSet.mem_union.mpr (.inl (hsub t ht))⟩
    · unfold Agenda.post
      rw [hempty, hd]
      exact h.unqueued
    · rw [delta?_post_self hempty, hd]
  · refine ⟨?_, delta, (delta?_post_of_ne new hne).trans hd, hsub⟩
    unfold Agenda.post
    rw [hempty]
    cases a.delta? item' with
    | some waiting => exact h.unqueued
    | none => exact fun hx => (Bag.mem_present_add.mp hx).elim (Ne.symm hne) h.unqueued

theorem Holds.collect (h : a.Holds item tokens) (hne : item' ≠ item) :
    (a.collect item').2.Holds item tokens := by
  obtain ⟨delta, hd, hsub⟩ := h.waiting
  exact ⟨h.unqueued, delta, delta?_collect.trans ((if_neg hne).trans hd), hsub⟩

end Agenda

/-- The item is not even in a bag. -/
structure Moment.Spares (m : Moment ε τ σ) (item : WorkItem) (tokens : TokenSet τ) : Prop where
  unbagged : ¬ InBags m.bags item
  holds : m.world.flow.agenda.Holds item tokens

omit [DecidableEq ε] in
theorem Request.passes_le {q : Request ε τ σ} {w : World ε τ σ} (hreset : q ≠ .reset) :
    w.staff.passes ≤ (q.perform w).staff.passes := by
  rcases q.staff_perform w with h | ⟨_, _, -, h⟩ | ⟨_, -, h⟩ | ⟨-, h⟩ | ⟨e, -⟩
  · exact (congrArg Staff.passes h).ge
  · exact (congrArg Staff.passes h).ge
  · exact (congrArg Staff.passes h).ge
  · have hpasses : (q.perform w).staff.passes = w.staff.passes + 1 := congrArg Staff.passes h
    omega
  · exact absurd e hreset

theorem Step.passes_le (h : Step m d m') (hd : d.isReset = false) :
    m.world.staff.passes ≤ m'.world.staff.passes := by
  cases h with
  | ask q => exact Request.passes_le (Deed.ne_reset hd)
  | discover _ hfind _ hcreate =>
    subst hcreate
    obtain ⟨_, _, hcreate⟩ := World.create_eq _ hfind
    rw [hcreate]
    exact Nat.le_refl _
  | _ => exact Nat.le_refl _

omit [DecidableEq ε] in
theorem Request.holds_perform {q : Request ε τ σ} {w : World ε τ σ} {item : WorkItem}
    {tokens : TokenSet τ} (hreset : q ≠ .reset) (hitem : item.carriesTokens)
    (hpasses : (q.perform w).staff.passes = w.staff.passes)
    (h : w.flow.agenda.Holds item tokens) : (q.perform w).flow.agenda.Holds item tokens := by
  have hpass : w.condense.2.staff.passes ≠ w.staff.passes := Nat.succ_ne_self _
  by_cases hpostpone : ∃ task, q = .postpone task
  · obtain ⟨task, rfl⟩ := hpostpone
    refine ⟨fun hx => (Bag.mem_present_add.mp hx).elim (fun e => ?_) h.unqueued, h.waiting⟩
    subst e
    cases hitem
  by_cases hcondense : q = .condense
  · subst hcondense
    exact absurd hpasses hpass
  by_cases hdue : q = .condenseIfDue
  · subst hdue
    rcases w.condenseIfDue_snd with e | e
    · have hflow : (Request.condenseIfDue.perform w).flow = w.flow := congrArg World.flow e
      rw [hflow]
      exact h
    · exact absurd ((congrArg (Staff.passes ∘ World.staff) e).symm.trans hpasses) hpass
  exact q.growing_perform (Agenda.growing_holds item tokens) (fun task e => hpostpone ⟨task, e⟩)
    hreset hcondense hdue h

namespace Moment.Spares

variable {w : World ε τ σ} {bag rest : Bag WorkItem} {bags : List (Bag WorkItem)}
  {errands errands' : List (Errand τ)} {item item' : WorkItem} {tokens : TokenSet τ}

omit [DecidableEq ε] in
theorem ne_of_take (h : Spares ⟨w, bag :: bags, errands⟩ item tokens)
    (ht : bag.take = (some item', rest)) : item' ≠ item := by
  rintro rfl
  exact h.unbagged ⟨bag, List.mem_cons_self, Bag.mem_present_of_take ht⟩

omit [DecidableEq ε] in
theorem unbagged_take (h : Spares ⟨w, bag :: bags, errands⟩ item tokens)
    (ht : bag.take = (some item', rest)) : ¬ InBags (rest :: bags) item := by
  have hunbagged := h.unbagged
  rw [inBags_cons] at hunbagged ⊢
  exact fun hx => hunbagged (hx.imp_left (Bag.mem_of_mem_take ht))

omit [DecidableEq ε] in
theorem execute (h : Spares ⟨w, bag :: bags, errands⟩ item tokens)
    (ht : bag.take = (some item', rest)) :
    Spares ⟨w.setFlow (w.flow.execute w.sieve item').2, rest :: bags, errands'⟩ item tokens := by
  have hcollect := h.holds.collect (h.ne_of_take ht)
  refine ⟨h.unbagged_take ht, execute_cases (P := fun f => f.agenda.Holds item tokens) item'
    (fun _ => hcollect) fun n new _ _ => ?_⟩
  exact growing_deliver (Agenda.growing_holds item tokens) hcollect

end Moment.Spares

/-- **What is neither queued nor in a bag is not touched**, as long as no cycles are condensed. -/
theorem Step.spares {item : WorkItem} {tokens : TokenSet τ} (h : Step m d m')
    (hd : d.isReset = false) (hitem : item.carriesTokens)
    (hpasses : m'.world.staff.passes = m.world.staff.passes) (hm : m.Spares item tokens) :
    m'.Spares item tokens := by
  cases h with
  | ask q =>
    exact ⟨hm.unbagged, Request.holds_perform (Deed.ne_reset hd) hitem hpasses hm.holds⟩
  | discover _ hfind _ hcreate =>
    subst hcreate
    obtain ⟨_, _, hcreate⟩ := World.create_eq _ hfind
    rw [hcreate]
    exact ⟨hm.unbagged, hm.holds⟩
  | look | discovered | answer | heard => exact ⟨hm.unbagged, hm.holds⟩
  | beginRound hbag =>
    obtain ⟨rfl, rfl⟩ := Agenda.startRound_eq_some hbag
    refine ⟨?_, List.not_mem_nil, hm.holds.waiting⟩
    rw [inBags_cons]
    exact fun hx => hx.elim hm.holds.unqueued hm.unbagged
  | skip htake => exact ⟨hm.unbagged_take htake, hm.holds⟩
  | work htake => exact ⟨hm.unbagged_take htake, hm.holds⟩
  | send htake => exact hm.execute htake
  | hear htake => exact hm.execute htake
  | lose htake => exact hm.execute htake
  | @giveBack _ _ _ _ _ _ new =>
    exact ⟨hm.unbagged, (Agenda.growing_holds item tokens).post new rfl hm.holds⟩
  | finish =>
    have hunbagged := hm.unbagged
    rw [inBags_cons] at hunbagged
    exact ⟨fun hx => hunbagged (.inr hx), hm.holds⟩
  | @breakOff w bag bags errands executed failure =>
    have hunbagged := hm.unbagged
    rw [inBags_cons] at hunbagged
    refine ⟨fun hx => hunbagged (.inr hx), fun hx => ?_, hm.holds.waiting⟩
    rcases Bag.mem_present_foldl_add.mp hx with hx | hx
    · exact hunbagged (.inl (Bag.mem_of_mem_pendingOf hx))
    · exact hm.holds.unqueued hx

/-- No request is one for a reset. -/
def NoReset (q : Request ε τ σ) : Prop := q ≠ .reset

omit [DecidableEq ε] in
theorem not_noReset : ¬ NoReset (.reset : Request ε τ σ) := fun h => h rfl

namespace Follows

theorem passes_le (h : Follows NoReset m log m') :
    m.world.staff.passes ≤ m'.world.staff.passes :=
  h.course.relates (R := fun w w' => w.staff.passes ≤ w'.staff.passes)
    (P := fun d => d.isReset = false) (fun _ => Nat.le_refl _) Nat.le_trans Step.passes_le
    (h.isReset not_noReset)

theorem spares {item : WorkItem} {tokens : TokenSet τ} (h : Follows NoReset m log m')
    (hitem : item.carriesTokens) (hpasses : m'.world.staff.passes = m.world.staff.passes)
    (hm : m.Spares item tokens) : m'.Spares item tokens := by
  obtain ⟨hcourse, hlog, honly⟩ := h
  induction hcourse with
  | nil => exact hm
  | cons hstep hrest ih =>
    obtain ⟨hd, hlog⟩ := List.forall_mem_cons.mp hlog
    have hd := hd.isReset not_noReset
    -- the number of passes only grows, so it has not changed in the first step either
    have hfirst := hstep.passes_le hd
    have hafter := passes_le ⟨hrest, hlog, honly⟩
    exact ih (by omega) (hstep.spares hd hitem (by omega) hm) hlog honly

end Follows

/-! ## 4. Rounds that fail -/

namespace World

/-- **Items of a bag are executed without a failure**: `done`, in this order, and `left` is what is
left of the bag. -/
inductive Executes (run : Runner ε τ σ) :
    Bag WorkItem → World ε τ σ → List WorkItem → Bag WorkItem → World ε τ σ → Prop where
  | nil {bag w} : Executes run bag w [] bag w
  | cons {bag item rest w did w₁ done left w₂} (htake : bag.take = (some item, rest))
      (hitem : execute run item w = some (.ok did, w₁))
      (hrest : Executes run rest w₁ done left w₂) :
      Executes run bag w (item :: done) left w₂

/-- **A round fails at an item**: it executes `done`, and then fails at `item` in the world `w₁`. -/
def FailsAt (run : Runner ε τ σ) (w : World ε τ σ) (failure : Failure)
    (done : List WorkItem) (item : WorkItem) (w₁ : World ε τ σ) : Prop :=
  ∃ bag agenda left rest w₂, w.flow.agenda.startRound = some (bag, agenda) ∧
    Executes run bag (w.begun agenda) done left w₁ ∧ left.take = (some item, rest) ∧
      execute run item w₁ = some (.error failure, w₂)

variable {run : Runner ε τ σ} {deeds : Chronicler ε τ σ} {w w' w₁ : World ε τ σ}
  {bag left : Bag WorkItem}
  {done : List WorkItem} {item : WorkItem} {tokens : TokenSet τ}

theorem execute_follows (hrun : Runner.Logs NoReset run deeds) (hw : w.staff.Only NoReset)
    {rest : Bag WorkItem} {answer : Except Failure Bool} (htake : left.take = (some item, rest))
    (h : execute run item w = some (answer, w')) :
    Follows NoReset ⟨w, [left], []⟩ (w.executeDeeds run deeds item) ⟨w', [rest], []⟩ :=
  (execute_logged hrun hw htake).follows h

namespace Executes

theorem follows (hrun : Runner.Logs NoReset run deeds) (hw : w.staff.Only NoReset)
    (h : Executes run bag w done left w₁) :
    ∃ log, Follows NoReset ⟨w, [bag], []⟩ log ⟨w₁, [left], []⟩ := by
  induction h with
  | nil => exact ⟨[], .nil hw⟩
  | cons htake hitem _ ih =>
    have hfirst := execute_follows hrun hw htake hitem
    obtain ⟨log, hrest⟩ := ih hfirst.only
    exact ⟨_, hfirst.append hrest⟩

omit [DecidableEq ε] in
/-- What was not executed is left. -/
theorem mem_left (h : Executes run bag w done left w₁) (hb : bag.Sound) :
    left.Sound ∧ ∀ x, x ∈ left.present ↔ x ∈ bag.present ∧ x ∉ done := by
  induction h with
  | nil => simp [hb]
  | cons htake _ _ ih =>
    obtain ⟨-, hrest, hsound⟩ := Bag.take_eq_some hb htake
    obtain ⟨hleft, hmem⟩ := ih hsound
    refine ⟨hleft, fun x => ?_⟩
    rw [hmem, hrest, List.mem_cons]
    tauto

end Executes

/-- Executing one item leaves the tokens of another one that is not queued. -/
theorem execute_holds (hrun : Runner.Logs NoReset run deeds) (hw : w.staff.Only NoReset)
    {answer : Except Failure Bool} {x : WorkItem} (h : execute run item w = some (answer, w'))
    (hne : x ≠ item) (hx : x.carriesTokens) (hpasses : w'.staff.passes = w.staff.passes)
    (hholds : w.flow.agenda.Holds x tokens) : w'.flow.agenda.Holds x tokens := by
  -- the bag that the item comes from does not matter, so let there be nothing else in it
  have hfollows := execute_follows hrun hw (Bag.take_singleton item) h
  have hspares : Moment.Spares ⟨w, [((Bag.empty .fifo).add item).2], []⟩ x tokens := by
    refine ⟨?_, hholds⟩
    simp [InBags, Bag.mem_present_add, Bag.empty, hne]
  exact (hfollows.spares hx hpasses hspares).holds

theorem Executes.holds (hrun : Runner.Logs NoReset run deeds) (h : Executes run bag w done left w₁)
    (hw : w.staff.Only NoReset) (hb : bag.Sound) {x : WorkItem} (hleft : x ∈ left.present)
    (hx : x.carriesTokens) (hpasses : w₁.staff.passes = w.staff.passes)
    (hholds : w.flow.agenda.Holds x tokens) : w₁.flow.agenda.Holds x tokens := by
  induction h with
  | nil => exact hholds
  | @cons bag item rest w did w₁ done left w₂ htake hitem hrest ih =>
    obtain ⟨-, hmem, hsound⟩ := Bag.take_eq_some hb htake
    have hfollows := execute_follows hrun hw htake hitem
    obtain ⟨log, hafter⟩ := hrest.follows hrun hfollows.only
    have hfirst : w.staff.passes ≤ w₁.staff.passes := hfollows.passes_le
    have hlast : w₁.staff.passes ≤ w₂.staff.passes := hafter.passes_le
    have hne : x ≠ item := ((hmem x).mp (((hrest.mem_left hsound).2 x).mp hleft).1).1
    have hheld := execute_holds hrun hw hitem hne hx (by omega) hholds
    exact ih hfollows.only hsound hleft (by omega) hheld

omit [DecidableEq ε] in
/-- A bag in which something fails was executed up to there. -/
theorem executeBag_fails {count executed : Nat} {p : Progress} {failure : Failure}
    (h : executeBag run count bag executed w = some (p, w')) (hp : p.failure = some failure) :
    ∃ done left item w₁, Executes run bag w done left w₁ ∧ left.take = (some item, p.bag) ∧
      execute run item w₁ = some (.error failure, w') := by
  induction count generalizing bag executed w with
  | zero =>
    cases h
    cases hp
  | succ count ih =>
    unfold executeBag at h
    split at h
    · cases h
      cases hp
    · rename_i item rest htake
      split at h
      · cases h
      · rename_i hitem
        obtain ⟨done, left, item', w₁, hdone, hleft⟩ := ih h
        exact ⟨item :: done, left, item', w₁, .cons htake hitem hdone, hleft⟩
      · rename_i hitem
        cases h
        cases hp
        exact ⟨[], bag, item, w, .nil, htake, hitem⟩

omit [DecidableEq ε] in
/-- A round that fails was executed up to there, and the rest is put back. -/
theorem round_fails {failure : Failure} (h : round run w = some (.error failure, w')) :
    ∃ bag agenda done left item rest w₁ w₂ executed,
      w.flow.agenda.startRound = some (bag, agenda) ∧
      Executes run bag (w.begun agenda) done left w₁ ∧ left.take = (some item, rest) ∧
      execute run item w₁ = some (.error failure, w₂) ∧
      w' = (finishRound ⟨rest, executed, some failure⟩ w₂).2 := by
  unfold round at h
  split at h
  · cases h
  · rename_i bag agenda hbag
    dsimp only at h
    obtain ⟨⟨⟨rest, executed, failure'⟩, w₂⟩, hp, hfinish⟩ := Option.map_eq_some_iff.mp h
    cases failure' with
    | none => cases hfinish
    | some failure' =>
      cases hfinish
      obtain ⟨done, left, item, w₁, hdone, hleft, hitem⟩ := executeBag_fails hp rfl
      exact ⟨bag, agenda, done, left, item, rest, w₁, w₂, executed, hbag, hdone, hleft, hitem, rfl⟩

omit [DecidableEq ε] in
/-- A listener that fails gets its tokens again. -/
theorem delta?_of_execute_fails {n : NodeId} {l : ListenerId} {failure : Failure}
    (h : execute run (.notify n l) w = some (.error failure, w'))
    (hd : w.flow.agenda.delta? (.notify n l) = some tokens) (hne : tokens.isEmpty = false)
    (hl : l.index < w.engine.listeners.size) :
    ∃ delta, w'.flow.agenda.delta? (.notify n l) = some delta ∧ ∀ t ∈ tokens, t ∈ delta := by
  unfold execute at h
  rw [collect_of_some hd] at h
  dsimp only at h
  split at h
  · rename_i hnone
    exact absurd hl (Array.getElem?_eq_none_iff.mp hnone).not_gt
  · split at h
    · cases h
    · cases h
    · cases h
      exact Agenda.exists_delta?_post hne

/-! ## 5. Whenever no round is under way -/

/-- A round is the run of a routine that asks for it. -/
theorem run_round {depth : Nat} {answer : Except Failure (Option Nat)}
    (h : round (World.run depth) w = some (answer, w')) :
    World.run (depth + 1) (.round fun _ => .done) w = some (.ok (), w') := by
  unfold World.run Routine.runWith
  rw [h]
  rfl

namespace Reachable

variable {allowed : Request ε τ σ → Prop}

theorem tidy (h : w.Reachable allowed) : Moment.Tidy ⟨w, [], []⟩ := by
  induction h with
  | new =>
    refine ⟨Graph.wellFormed_empty.grouped, nofun, ?_⟩
    exact (Agenda.Tidy.empty _ _).mono (fun _ => id) fun _ hid => by cases hid
  | install _ _ _ _ _ _ ih => exact ⟨ih.grouped, ih.sound, ih.agenda⟩
  | run hreachable hr hrun ih =>
    exact ((run_logged _ [] [] hr hreachable.only).follows hrun).course.tidy ih

theorem queued (h : w.Reachable allowed) (hd : w.flow.agenda.delta? item = some tokens) :
    item ∈ w.flow.agenda.next.present :=
  (h.tidy.agenda.kept.queued hd).resolve_right fun ⟨_, hbag, _⟩ => List.not_mem_nil hbag

theorem round {depth : Nat} {answer : Except Failure (Option Nat)} (h : w.Reachable allowed)
    (hround : World.round (World.run depth) w = some (answer, w')) : w'.Reachable allowed := by
  have honly : (Routine.round fun _ => .done : Routine ε τ σ).Only allowed := fun _ => trivial
  exact h.run honly (run_round hround)

theorem tidy_executes {depth : Nat} {agenda : Agenda τ} (h : w.Reachable NoReset)
    (hbag : w.flow.agenda.startRound = some (bag, agenda))
    (hdone : Executes (World.run depth) bag (w.begun agenda) done left w₁) :
    Moment.Tidy ⟨w₁, [left], []⟩ := by
  have honly : (w.begun agenda).staff.Only NoReset := h.only
  obtain ⟨log, hfollows⟩ := hdone.follows (run_logged depth) honly
  exact hfollows.course.tidy ((Step.beginRound hbag).tidy h.tidy)

/-- What a round that fails has not got to is queued again, with the tokens it had. -/
theorem left_over {depth : Nat} {failure : Failure} {agenda : Agenda τ} {rest : Bag WorkItem}
    {w₂ : World ε τ σ} (h : w.Reachable NoReset)
    (hbag : w.flow.agenda.startRound = some (bag, agenda))
    (hdone : Executes (World.run depth) bag (w.begun agenda) done left w₁)
    (hleft : left.take = (some item, rest))
    (hitem : World.execute (World.run depth) item w₁ = some (.error failure, w₂))
    (hpasses : w₂.staff.passes = w.staff.passes) {x : WorkItem}
    (hx : x ∈ w.flow.agenda.next.present) (hxdone : x ∉ done) (hxitem : x ≠ item) :
    x ∈ (w₂.flow.agenda.putBack rest).next.present ∧
      ∀ delta, w.flow.agenda.delta? x = some delta →
      ∃ delta', w₂.flow.agenda.delta? x = some delta' ∧ ∀ t ∈ delta, t ∈ delta' := by
  have hlogs : Runner.Logs NoReset (World.run depth : Runner ε τ σ) (World.deeds depth) :=
    run_logged depth
  obtain ⟨hsound, -⟩ := h.tidy.agenda.startRound hbag
  obtain ⟨rfl, rfl⟩ := Agenda.startRound_eq_some hbag
  have honly :
      (w.begun ⟨.empty w.flow.agenda.next.order, w.flow.agenda.deltas⟩).staff.Only NoReset :=
    h.only
  obtain ⟨hsoundleft, hmem⟩ := hdone.mem_left hsound
  have hxleft : x ∈ left.present := (hmem x).mpr ⟨hx, hxdone⟩
  obtain ⟨-, hrest, hsoundrest⟩ := Bag.take_eq_some hsoundleft hleft
  refine ⟨(Agenda.mem_next_putBack hsoundrest).mpr (.inl ((hrest x).mpr ⟨hxitem, hxleft⟩)),
    fun delta hd => ?_⟩
  have hcarries := h.tidy.agenda.carries hd
  obtain ⟨log, hfollows⟩ := hdone.follows hlogs honly
  have hlast := execute_follows hlogs hfollows.only hleft hitem
  have hpasses₁ : w.staff.passes ≤ w₁.staff.passes := hfollows.passes_le
  have hpasses₂ : w₁.staff.passes ≤ w₂.staff.passes := hlast.passes_le
  -- the round has taken the item out of the queue, so nobody else gets hold of it
  have hsame₁ : w₁.staff.passes = w.staff.passes := by omega
  have hsame₂ : w₂.staff.passes = w₁.staff.passes := by omega
  have hheld := hdone.holds hlogs honly hsound hxleft hcarries hsame₁
    ⟨List.not_mem_nil, delta, hd, fun _ => id⟩
  exact (execute_holds hlogs hfollows.only hitem hxitem hcarries hsame₂ hheld).waiting

/-- **No pending work is orphaned.** Whenever no round is under way, every item for which tokens
wait is queued and will be handed out, and so is every stored task; so if nothing is queued, nothing
waits. If a round fails, it has executed some items and failed at one. If no cycles were condensed
meanwhile, all others are queued with at least the tokens that they had. A listener that failed is
queued with at least the tokens it was given. -/
theorem pending_kept (h : w.Reachable NoReset) :
    w.flow.agenda.next.Sound ∧
    (∀ item delta, w.flow.agenda.delta? item = some delta →
      item ∈ w.flow.agenda.next.present ∧ delta.isEmpty = false) ∧
    (∀ id task, w.engine.tasks.get? id = some task → .task id ∈ w.flow.agenda.next.present) ∧
    (w.engine.hasPendingWork = false →
      (∀ item, w.flow.agenda.delta? item = none) ∧ ∀ id, w.engine.tasks.get? id = none) ∧
    ∀ depth failure w', World.round (World.run depth) w = some (.error failure, w') →
      ∃ done item w₁, FailsAt (World.run depth) w failure done item w₁ ∧
        (w'.engine.stats.passes = w.engine.stats.passes →
          ∀ x ∈ w.flow.agenda.next.present, x ∉ done → x ≠ item →
            x ∈ w'.flow.agenda.next.present ∧ ∀ delta, w.flow.agenda.delta? x = some delta →
              ∃ delta', w'.flow.agenda.delta? x = some delta' ∧ ∀ t ∈ delta, t ∈ delta') ∧
        ∀ n l tokens, item = .notify n l → l.index < w₁.engine.listeners.size →
          w₁.flow.agenda.delta? item = some tokens →
          item ∈ w'.flow.agenda.next.present ∧
            ∃ delta', w'.flow.agenda.delta? item = some delta' ∧ ∀ t ∈ tokens, t ∈ delta' := by
  have htasks : ∀ id task, w.engine.tasks.get? id = some task →
      .task id ∈ w.flow.agenda.next.present := fun id task ht =>
    (h.tidy.agenda.tasks (by rw [ht]; rfl)).resolve_right fun ⟨_, hbag, _⟩ =>
      List.not_mem_nil hbag
  refine ⟨h.tidy.agenda.kept.sound, fun item delta hd => ⟨h.queued hd,
    h.tidy.agenda.kept.nonempty hd⟩, htasks, fun hidle => ?_, fun depth failure w' hround => ?_⟩
  · have hnil : w.flow.agenda.next.present = [] := Bag.hasWork_eq_false.mp hidle
    refine ⟨fun item => ?_, fun id => ?_⟩
    · cases hd : w.flow.agenda.delta? item with
      | none => rfl
      | some delta => exact absurd (h.queued hd) (hnil ▸ List.not_mem_nil)
    · cases ht : w.engine.tasks.get? id with
      | none => rfl
      | some task => exact absurd (htasks id task ht) (hnil ▸ List.not_mem_nil)
  · obtain ⟨bag, agenda, done, left, item, rest, w₁, w₂, executed, hbag, hdone, hleft, hitem,
      rfl⟩ := round_fails hround
    refine ⟨done, item, w₁, ⟨bag, agenda, left, rest, w₂, hbag, hdone, hleft, hitem⟩,
      fun hpasses x hx hxdone hxitem => ?_, fun n l tokens hnotify hl hd => ?_⟩
    · exact h.left_over hbag hdone hleft hitem hpasses hx hxdone hxitem
    · subst hnotify
      have hne := (h.tidy_executes hbag hdone).agenda.kept.nonempty hd
      obtain ⟨delta', hdelta', hsub⟩ := delta?_of_execute_fails hitem hd hne hl
      exact ⟨(h.round hround).queued hdelta', delta', hdelta', hsub⟩

end Reachable

/-- Two nodes in a row; the listener at the first one sends another token, and then fails. -/
def troubled : Routine Unit Nat Unit :=
  .addNode fun n => .addNode fun m =>
    .listen n (fun n _ => .deliver n (.singleton 6) fun _ => .fail .noRoots) fun _ =>
      .link n m fun _ => .deliver n (.singleton 5) fun _ => .done

/-- The listener is to be called first, and the second node is to get the token after that. -/
def troubledWorld : World Unit Nat Unit :=
  let w := ⟨.new default, (), true⟩
  ((World.run 1 troubled w).getD (.ok (), w)).2

theorem reachable_troubledWorld : troubledWorld.Reachable NoReset := by
  have hrun : World.run 1 troubled ⟨.new default, (), true⟩ = some (.ok (), troubledWorld) := rfl
  refine .run (.new default () true) ?_ hrun
  simp [troubled, Routine.Only, NoReset]

theorem pending_kept_troubledWorld : ∃ w',
    World.round (World.run 1) troubledWorld = some (.error .noRoots, w') ∧
    .send ⟨1⟩ ∈ w'.flow.agenda.next.present ∧
    (∃ delta, w'.flow.agenda.delta? (.send ⟨1⟩) = some delta ∧ 5 ∈ delta) ∧
    .notify ⟨0⟩ ⟨0⟩ ∈ w'.flow.agenda.next.present ∧
    ∃ delta, w'.flow.agenda.delta? (.notify ⟨0⟩ ⟨0⟩) = some delta ∧ 5 ∈ delta := by
  obtain ⟨w', hround⟩ : ∃ w',
    World.round (World.run 1) troubledWorld = some (.error .noRoots, w') := ⟨_, rfl⟩
  have hpasses : w'.engine.stats.passes = troubledWorld.engine.stats.passes := by
    cases hround
    rfl
  obtain ⟨done, item, w₁, ⟨bag, agenda, left, rest, w₂, hbag, hdone, hleft, hitem⟩, hkept,
    hagain⟩ := reachable_troubledWorld.pending_kept.2.2.2.2 1 _ w' hround
  cases hbag
  cases hdone with
  | nil =>
    cases hleft
    obtain ⟨hsend, hsends⟩ := hkept hpasses (.send ⟨1⟩) (by decide) List.not_mem_nil nofun
    obtain ⟨hnotify, delta', hdelta', hsub'⟩ :=
      hagain ⟨0⟩ ⟨0⟩ (.singleton 5) rfl (by decide) rfl
    obtain ⟨delta, hdelta, hsub⟩ := hsends (.singleton 5) rfl
    exact ⟨w', hround, hsend, ⟨delta, hdelta, hsub 5 (by decide)⟩, hnotify, delta', hdelta',
      hsub' 5 (by decide)⟩
  | cons htake hfirst =>
    -- the listener comes first, and does not succeed
    cases htake
    cases hfirst

end World

end ValueFlow
