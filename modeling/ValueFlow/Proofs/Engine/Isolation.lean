import ValueFlow.Proofs.Engine.Pending

/-!
# Rounds are apart

A round works off the bag that was queued when it began, and what is queued meanwhile goes into the
bag of the next one. But the tokens of both lie in one table, and listeners, tasks and discoveries
queue work at any point of the round. What keeps the two bags apart is that there is something to do
for every item in either of them (`World.Laden`): tokens that come for an item in hand are merged
into what it carries and do not queue it; once it was executed its tokens are gone, and new ones
queue it for the next round.

* `Bag.handOut` is the order in which a bag hands its items out;
* `Execution`, `World.executions`: what a round executes, item by item;
* `Deed.isPlain`: collaborators may do anything but condense, reset, or begin rounds that have
  anything to do;
* `Step.calm`, `Course.calm`: plain deeds keep the two bags apart;
* `World.Laden.drains`: how a bag is worked off by plain collaborators;
* `World.Between`: the worlds between rounds, and `World.Between.run`: runs that begin no round lead
  from one to another.
-/

namespace ValueFlow

variable {ε τ σ : Type} [Ordered τ]

/-! ## 1. Agendas -/

namespace Agenda

variable {a a' : Agenda τ} {inHand rest : WorkItem → Prop} {stored stored' : TaskId → Prop}
  {item x : WorkItem} {bag : Bag WorkItem}

/-- There is something to do for the item: tokens wait for it, or it is a stored task. -/
def Busy (a : Agenda τ) (stored : TaskId → Prop) : WorkItem → Prop
  | .task id => stored id
  | item => a.delta? item ≠ none

theorem busy_iff (h : item.carriesTokens) : a.Busy stored item ↔ a.delta? item ≠ none := by
  cases item with
  | send | notify => exact Iff.rfl
  | task => cases h

theorem Busy.mono (h : a.Busy stored x) (hdelta : a'.delta? x = none → a.delta? x = none)
    (hstored : ∀ id, x = .task id → stored id → stored' id) : a'.Busy stored' x := by
  cases x with
  | send | notify => exact fun hnone => h (hdelta hnone)
  | task id => exact hstored id rfl h

/-- **Every queued item and every item in hand has something to do**, and none is both. -/
structure Laden (a : Agenda τ) (inHand : WorkItem → Prop) (stored : TaskId → Prop) : Prop where
  sound : a.next.Sound
  busy : ∀ {item}, item ∈ a.next.present ∨ inHand item → a.Busy stored item
  apart : ∀ {item}, inHand item → item ∉ a.next.present

theorem growing_laden (inHand : WorkItem → Prop) (stored : TaskId → Prop) :
    Growing fun a : Agenda τ => a.Laden inHand stored := by
  refine ⟨fun {a item} tokens hitem h => ⟨sound_post h.sound item tokens, fun {x} hx => ?_,
    fun {x} hx hnext => ?_⟩⟩
  · have hold : a.Busy stored x → (a.post item tokens).2.Busy stored x := fun hbusy =>
      hbusy.mono (fun hnone => (delta?_post_eq_none.mp hnone).1) fun _ _ => id
    rcases hx with hx | hx
    · rcases mem_next_post_iff.mp hx with hx | ⟨rfl, -, htokens⟩
      · exact hold (h.busy (.inl hx))
      · rw [busy_iff hitem, ne_eq, delta?_post_eq_none]
        simp [htokens]
    · exact hold (h.busy (.inr hx))
  · -- tokens for an item in hand find others waiting
    rcases mem_next_post_iff.mp hnext with hnext | ⟨rfl, hnone, -⟩
    · exact h.apart hx hnext
    · exact (busy_iff hitem).mp (h.busy (.inr hx)) hnone

/-- With nothing in hand, items may be withdrawn. -/
theorem lasting_laden (stored : TaskId → Prop) :
    Lasting fun a : Agenda τ => a.Laden (fun _ => False) stored := by
  refine ⟨growing_laden _ stored, fun {a} r h => ?_⟩
  cases hd : a.delta? (.send r) with
  | none =>
    unfold withdraw
    rw [hd]
    exact h
  | some tokens =>
    have hnext : (a.withdraw (.send r)).2.next = (a.next.remove (.send r)).2 := by
      unfold withdraw
      rw [hd]
    refine ⟨hnext ▸ h.sound.remove _, fun {x} hx => ?_, False.elim⟩
    rw [hnext, Bag.mem_present_remove h.sound, or_false] at hx
    refine (h.busy (.inl hx.2)).mono (fun hnone => ?_) fun _ _ => id
    rwa [delta?_withdraw, if_neg hx.1.symm] at hnone

namespace Laden

theorem empty (order : BagOrder) (stored : TaskId → Prop) :
    (Agenda.empty order : Agenda τ).Laden (fun _ => False) stored :=
  ⟨Bag.sound_empty order, fun h => h.elim (nomatch ·) False.elim, False.elim⟩

theorem mono (h : a.Laden inHand stored) (hrest : ∀ x, rest x → inHand x) : a.Laden rest stored :=
  ⟨h.sound, fun hx => h.busy (hx.imp_right (hrest _)), fun hx => h.apart (hrest _ hx)⟩

theorem schedule {id : TaskId} (h : a.Laden inHand stored) (hid : ¬ stored id) :
    (a.schedule (.task id)).2.Laden inHand fun id' => id' = id ∨ stored id' := by
  have hold : ∀ {x}, x ∈ a.next.present ∨ inHand x →
      (a.schedule (.task id)).2.Busy (fun id' => id' = id ∨ stored id') x := fun hx =>
    (h.busy hx).mono (fun hnone => hnone) fun _ _ => .inr
  refine ⟨h.sound.add _, fun {x} hx => ?_, fun {x} hx hnext => ?_⟩
  · rcases hx with hx | hx
    · rcases Bag.mem_present_add.mp hx with rfl | hx
      · exact .inl rfl
      · exact hold (.inl hx)
    · exact hold (.inr hx)
  · rcases Bag.mem_present_add.mp hnext with rfl | hnext
    · exact hid (h.busy (.inr hx))
    · exact h.apart hx hnext

/-- What is taken up is no longer in hand, and nothing is left to do for it. -/
theorem takeUp (h : a.Laden inHand stored) (hitem : inHand item)
    (hrest : ∀ x, rest x → x ≠ item ∧ inHand x) (hnext : a'.next = a.next)
    (hbusy : ∀ x, x ≠ item → a.Busy stored x → a'.Busy stored' x) : a'.Laden rest stored' := by
  refine ⟨hnext ▸ h.sound, fun {x} hx => ?_, fun hx => hnext ▸ h.apart (hrest _ hx).2⟩
  rw [hnext] at hx
  refine hbusy x ?_ (h.busy (hx.imp_right fun hx => (hrest x hx).2))
  rintro rfl
  exact hx.elim (h.apart hitem) fun hx => (hrest x hx).1 rfl

theorem startRound (h : a.Laden (fun _ => False) stored) (hs : a.startRound = some (bag, a')) :
    bag.Sound ∧ a'.Laden (· ∈ bag.present) stored := by
  obtain ⟨rfl, rfl⟩ := startRound_eq_some hs
  refine ⟨h.sound, Bag.sound_empty _, fun {x} hx => ?_, fun _ => List.not_mem_nil⟩
  have hx : x ∈ a.next.present := hx.resolve_left List.not_mem_nil
  exact (h.busy (.inl hx)).mono (fun hnone => hnone) fun _ _ => id

theorem putBack (hb : bag.Sound) (h : a.Laden (· ∈ bag.present) stored) :
    (a.putBack bag).Laden (fun _ => False) stored := by
  refine ⟨h.sound.foldl_add _, fun {x} hx => ?_, False.elim⟩
  rw [or_false, mem_next_putBack hb] at hx
  exact (h.busy hx.symm).mono (fun hnone => hnone) fun _ _ => id

end Laden

end Agenda

/-! ## 2. Worlds -/

/-- A request that does not condense and does not reset. -/
def Request.isPlain : Request ε τ σ → Bool
  | .condense | .condenseIfDue | .reset => false
  | _ => true

/-- **Nothing is done that reaches into a round that is under way**: no pass, no reset, and no round
within. -/
def Deed.isPlain : Deed ε τ σ → Bool
  | .ask q => q.isPlain
  | .beginRound | .execute _ | .endRound .. => false
  | _ => true

theorem Request.growing_plain {q : Request ε τ σ} (hq : q.isPlain) {w : World ε τ σ}
    {P : Agenda τ → Prop} (hP : Agenda.Growing P) (hpostpone : ∀ task, q ≠ .postpone task)
    (h : P w.flow.agenda) : P (q.perform w).flow.agenda := by
  refine growing_perform hP hpostpone ?_ ?_ ?_ h <;>
    · rintro rfl
      cases hq

namespace World

/-- The bag of the next round. -/
def nextBag (w : World ε τ σ) : Bag WorkItem := w.flow.agenda.next

/-- A task that is to be run. -/
def Stored (w : World ε τ σ) (id : TaskId) : Prop := w.engine.tasks.get? id ≠ none

/-- **Every queued item and every item in hand has something to do**, none is both, and tasks are
numbered anew. -/
structure Laden (w : World ε τ σ) (inHand : WorkItem → Prop) : Prop where
  agenda : w.flow.agenda.Laden inHand w.Stored
  fresh : ∀ {id}, w.Stored id → id.index < w.engine.nextTask.index

variable {w w' : World ε τ σ} {inHand : WorkItem → Prop} {q : Request ε τ σ} {item : WorkItem}
  {bag rest : Bag WorkItem}

theorem Laden.not_stored (h : w.Laden inHand) : ¬ w.Stored w.engine.nextTask := fun hstored =>
  Nat.lt_irrefl _ (h.fresh hstored)

theorem stored_perform (hpostpone : ∀ task, q ≠ .postpone task) (hreset : q ≠ .reset) :
    (q.perform w).Stored = w.Stored := by
  unfold Stored
  rw [q.tasks_perform hpostpone hreset]

theorem stored_postpone {task : Routine ε τ σ} {id : TaskId} :
    (w.postpone task).2.Stored id ↔ id = w.engine.nextTask ∨ w.Stored id := by
  show (w.engine.tasks.set w.engine.nextTask task).get? id ≠ none ↔ _
  rw [Table.get?_set]
  by_cases hid : w.engine.nextTask = id
  · simp [hid]
  · simp [hid, Ne.symm hid, Stored]

namespace Laden

theorem new (settings : Settings) (shared : σ) (active : Bool) :
    (⟨.new settings, shared, active⟩ : World ε τ σ).Laden fun _ => False :=
  ⟨.empty _ _, fun hstored => absurd rfl hstored⟩

theorem mono {p : WorkItem → Prop} (h : w.Laden inHand) (hp : ∀ x, p x → inHand x) : w.Laden p :=
  ⟨h.agenda.mono hp, h.fresh⟩

/-- Only what is on the agenda and what is stored counts. -/
theorem congr (h : w.Laden inHand) (hagenda : w'.flow.agenda = w.flow.agenda)
    (htasks : w'.engine.tasks = w.engine.tasks) (hnext : w'.engine.nextTask = w.engine.nextTask) :
    w'.Laden inHand := by
  have hstored : w'.Stored = w.Stored := by
    unfold Stored
    rw [htasks]
  refine ⟨?_, ?_⟩
  · rw [hagenda, hstored]
    exact h.agenda
  · rw [hstored, hnext]
    exact h.fresh

theorem postpone (h : w.Laden inHand) (task : Routine ε τ σ) :
    (w.postpone task).2.Laden inHand := by
  have hstored : (w.postpone task).2.Stored = fun id => id = w.engine.nextTask ∨ w.Stored id :=
    funext fun id => propext stored_postpone
  refine ⟨?_, fun {id} hid => ?_⟩
  · rw [hstored]
    exact h.agenda.schedule h.not_stored
  · show id.index < w.engine.nextTask.index + 1
    rcases stored_postpone.mp hid with rfl | hid
    · omega
    · have := h.fresh hid
      omega

/-- A plain request is made while items are in hand. -/
theorem ask (h : w.Laden inHand) (hq : q.isPlain) : (q.perform w).Laden inHand := by
  by_cases hpostpone : ∃ task, q = .postpone task
  · obtain ⟨task, rfl⟩ := hpostpone
    exact h.postpone task
  have hpostpone : ∀ task, q ≠ .postpone task := fun task e => hpostpone ⟨task, e⟩
  have hreset : q ≠ .reset := by
    rintro rfl
    cases hq
  refine ⟨?_, ?_⟩
  · rw [stored_perform hpostpone hreset]
    exact Request.growing_plain hq (Agenda.growing_laden inHand w.Stored) hpostpone h.agenda
  · rw [stored_perform hpostpone hreset, (Request.frame hreset w).nextTask hpostpone]
    exact h.fresh

/-- With nothing in hand any request may be made. -/
theorem ask_outside (hgrouped : w.flow.graph.Grouped) (h : w.Laden fun _ => False)
    (q : Request ε τ σ) : (q.perform w).Laden fun _ => False := by
  have hpass : (∀ task, q ≠ .postpone task) → q ≠ .reset →
      (q.perform w).Laden fun _ => False := by
    intro hpostpone hreset
    refine ⟨?_, ?_⟩
    · rw [stored_perform hpostpone hreset]
      exact q.lasting_perform (Agenda.lasting_laden w.Stored) hgrouped hpostpone hreset h.agenda
    · rw [stored_perform hpostpone hreset, (Request.frame hreset w).nextTask hpostpone]
      exact h.fresh
  cases q with
  | condense | condenseIfDue => exact hpass nofun nofun
  | reset => exact ⟨.empty _ _, fun hstored => absurd rfl hstored⟩
  | _ => exact h.ask rfl

theorem create [DecidableEq ε] {entity : ε} {c : Context ε} (h : w.Laden inHand) (shape : Shape)
    (hfind : w.engine.variants.find? entity c = none) :
    (w.create entity c shape).2.Laden inHand ∧
      (w.create entity c shape).2.nextBag = w.nextBag := by
  obtain ⟨_, _, hcreate⟩ := create_eq shape hfind
  rw [hcreate]
  exact ⟨h.congr rfl rfl rfl, rfl⟩

/-- An item is taken up, and its tokens with it. -/
theorem collected (hb : bag.Sound) (h : w.Laden (· ∈ bag.present))
    (htake : bag.take = (some item, rest)) : (w.collected item).Laden (· ∈ rest.present) := by
  obtain ⟨hmem, hrest, -⟩ := Bag.take_eq_some hb htake
  refine ⟨h.agenda.takeUp hmem (fun x hx => (hrest x).mp hx) rfl fun x hne hbusy => ?_, h.fresh⟩
  refine hbusy.mono (fun hnone => ?_) fun _ _ => id
  have hcollect : ((w.flow.agenda.collect item).2).delta? x = none := hnone
  rwa [Agenda.delta?_collect, if_neg hne.symm] at hcollect

/-- A task is taken up. -/
theorem withoutTask {id : TaskId} (hb : bag.Sound) (h : w.Laden (· ∈ bag.present))
    (htake : bag.take = (some (.task id), rest)) :
    (w.withoutTask id).Laden (· ∈ rest.present) := by
  obtain ⟨hmem, hrest, -⟩ := Bag.take_eq_some hb htake
  have hstored : ∀ id', (w.withoutTask id).Stored id' ↔ id' ≠ id ∧ w.Stored id' := by
    intro id'
    show (w.engine.tasks.erase id).get? id' ≠ none ↔ _
    rw [Table.get?_erase]
    by_cases hid : id = id'
    · simp [hid]
    · simp [hid, Ne.symm hid, Stored]
  refine ⟨h.agenda.takeUp hmem (fun x hx => (hrest x).mp hx) rfl fun x hne hbusy => ?_,
    fun hid => h.fresh ((hstored _).mp hid).2⟩
  refine hbusy.mono (fun hnone => hnone) fun id' hx hid => (hstored id').mpr ⟨?_, hid⟩
  rintro rfl
  exact hne hx

theorem deliver (h : w.Laden inHand) (n : NodeId) (tokens : TokenSet τ) :
    (w.setFlow (w.flow.deliver w.sieve n tokens).2).Laden inHand :=
  ⟨Flow.growing_deliver (Agenda.growing_laden inHand w.Stored) h.agenda, h.fresh⟩

theorem givenBack (h : w.Laden inHand) (hitem : item.carriesTokens) (tokens : TokenSet τ) :
    (w.givenBack item tokens).Laden inHand :=
  ⟨(Agenda.growing_laden inHand w.Stored).post tokens hitem h.agenda, h.fresh⟩

end Laden

/-- **Plain requests leave queued what is queued.** -/
theorem mem_nextBag_perform (hq : q.isPlain) (h : item ∈ w.nextBag.present) :
    item ∈ (q.perform w).nextBag.present := by
  by_cases hpostpone : ∃ task, q = .postpone task
  · obtain ⟨task, rfl⟩ := hpostpone
    exact Bag.mem_present_add.mpr (.inr h)
  · exact Request.growing_plain hq (P := fun a => item ∈ a.next.present)
      ⟨fun tokens _ => Agenda.mem_next_post⟩ (fun task e => hpostpone ⟨task, e⟩) h

end World

/-! ## 3. Plain runs -/

/-- **The world after some deeds of a round**: the bags are apart, and what was queued at any of the
deeds still is. -/
structure Calm (inHand : WorkItem → Prop) (l : List (Entry ε τ σ)) (w : World ε τ σ) : Prop where
  laden : w.Laden inHand
  stays : ∀ x ∈ l, ∀ item ∈ x.world.nextBag.present, item ∈ w.nextBag.present

namespace Calm

variable {inHand : WorkItem → Prop} {l : List (Entry ε τ σ)} {w w' : World ε τ σ}

/-- A deed is written down in the world in which it is done. -/
theorem concat (h : Calm inHand l w) (hladen : w'.Laden inHand)
    (hnext : ∀ item ∈ w.nextBag.present, item ∈ w'.nextBag.present) (d : Deed ε τ σ) :
    Calm inHand (l ++ [⟨d, w⟩]) w' := by
  refine ⟨hladen, fun x hx item hitem => ?_⟩
  rcases List.mem_append.mp hx with hx | hx
  · exact hnext item (h.stays x hx item hitem)
  · rw [List.mem_singleton.mp hx] at hitem
    exact hnext item hitem

end Calm

section Plain

variable [DecidableEq ε] {m m' : Moment ε τ σ} {d : Deed ε τ σ} {inHand : WorkItem → Prop}
  {l log : List (Entry ε τ σ)}

/-- **Plain deeds keep the bags apart.** -/
theorem Step.calm (h : Step m d m') (hd : d.isPlain) (hm : Calm inHand l m.world) :
    Calm inHand (l ++ [⟨d, m.world⟩]) m'.world := by
  cases h with
  | look | discovered | answer | heard => exact hm.concat hm.laden (fun _ => id) _
  | ask q => exact hm.concat (hm.laden.ask hd) (fun _ => World.mem_nextBag_perform hd) _
  | discover _ hfind _ hcreate =>
    obtain ⟨hladen, hnext⟩ := hm.laden.create _ hfind
    rw [hcreate] at hladen hnext
    exact hm.concat hladen (fun _ hitem => hnext ▸ hitem) _
  | giveBack =>
    exact hm.concat (hm.laden.givenBack rfl _) (fun _ => Agenda.mem_next_post) _
  | beginRound | skip | send | hear | lose | work | finish | breakOff => cases hd

theorem Course.calm (h : Course m log m') (hplain : ∀ x ∈ log, x.deed.isPlain)
    (hm : Calm inHand l m.world) : Calm inHand (l ++ log) m'.world := by
  induction h generalizing l with
  | nil => rwa [List.append_nil]
  | cons hstep _ ih =>
    obtain ⟨hd, hplain⟩ := List.forall_mem_cons.mp hplain
    have hrest := ih hplain (hstep.calm hd hm)
    rwa [List.append_assoc] at hrest

theorem Course.laden_of_mem (h : Course m log m') (hplain : ∀ x ∈ log, x.deed.isPlain)
    (hm : Calm inHand l m.world) {x : Entry ε τ σ} (hx : x ∈ log) : x.world.Laden inHand := by
  obtain ⟨before, after, rfl⟩ := List.append_of_mem hx
  obtain ⟨m₁, hbefore, hworld⟩ := h.split_cons
  have hcalm := hbefore.calm (fun y hy => hplain y (List.mem_append_left _ hy)) hm
  exact hworld ▸ hcalm.laden

end Plain

/-! ## 4. What a round executes -/

/-- **An item that a round takes up.** -/
structure Execution (ε τ σ : Type) [Ordered τ] where
  item : WorkItem
  /-- when it is taken up -/
  world : World ε τ σ
  /-- what its collaborator does -/
  deeds : List (Entry ε τ σ)
  /-- what comes of it, if it comes to an end -/
  outcome : Option (Outcome ε τ σ Bool)

namespace Execution

def entries (x : Execution ε τ σ) : List (Entry ε τ σ) := ⟨.execute x.item, x.world⟩ :: x.deeds

/-- The worlds from when the item is taken up until it is done. -/
def worlds (x : Execution ε τ σ) : List (World ε τ σ) :=
  x.entries.map Entry.world ++ x.outcome.toList.map Prod.snd

/-- **An item is executed apart from the others**: what is in the bag is not queued meanwhile, and
what is queued meanwhile is so at the end. -/
structure Steady (x : Execution ε τ σ) (bag : Bag WorkItem) : Prop where
  fresh : x.item ∉ x.world.nextBag.present
  apart : ∀ v ∈ x.worlds, ∀ item ∈ bag.present, item ∉ v.nextBag.present
  stays : ∀ {answer w}, x.outcome = some (answer, w) → ∀ v ∈ x.worlds,
    ∀ item ∈ v.nextBag.present, item ∈ w.nextBag.present
  laden : ∀ {answer w}, x.outcome = some (answer, w) → w.Laden (· ∈ bag.present)
  counts : ∀ {did w}, x.outcome = some (.ok did, w) → did = true

end Execution

namespace World

variable (run : Runner ε τ σ) (deeds : Chronicler ε τ σ)

def execution (item : WorkItem) (w : World ε τ σ) : Execution ε τ σ :=
  ⟨item, w, (w.executeDeeds run deeds item).tail, execute run item w⟩

/-- What is executed of a bag, up to the first failure. -/
def bagExecutions : Nat → Bag WorkItem → World ε τ σ → List (Execution ε τ σ)
  | 0, _, _ => []
  | count + 1, bag, w =>
    match bag.take with
    | (none, _) => []
    | (some item, bag) =>
      w.execution run deeds item ::
        match execute run item w with
        | some (.ok _, w) => bagExecutions count bag w
        | _ => []

def roundExecutions (w : World ε τ σ) : List (Execution ε τ σ) :=
  match w.flow.agenda.startRound with
  | none => []
  | some (bag, agenda) => bagExecutions run deeds bag.size bag (w.begun agenda)

theorem executeBagDeeds_eq (count : Nat) (bag : Bag WorkItem) (w : World ε τ σ) :
    executeBagDeeds run deeds count bag w =
      (bagExecutions run deeds count bag w).flatMap Execution.entries := by
  induction count generalizing bag w with
  | zero => rfl
  | succ count ih =>
    unfold executeBagDeeds bagExecutions
    cases bag.take with
    | mk item rest =>
      cases item with
      | none => rfl
      | some item =>
        dsimp only
        rw [List.flatMap_cons]
        refine congrArg (w.executeDeeds run deeds item ++ ·) ?_
        rcases execute run item w with _ | ⟨_ | _, w₁⟩
        · rfl
        · rfl
        · exact ih rest w₁

/-- What is done in a round is what is done for its items, one after the other. -/
theorem roundDeeds_eq (w : World ε τ σ) :
    w.roundDeeds run deeds = (w.roundExecutions run deeds).flatMap Execution.entries := by
  unfold roundDeeds roundExecutions
  cases w.flow.agenda.startRound with
  | none => rfl
  | some start => exact executeBagDeeds_eq run deeds _ _ _

end World

/-! ## 5. Working off a bag -/

section Draining

variable [DecidableEq ε] {run : Runner ε τ σ} {deeds : Chronicler ε τ σ} {w w' : World ε τ σ}
  {item : WorkItem} {bag rest : Bag WorkItem}

/-- **The first thing that is done for an item** takes up its tokens, or the task. There is
something to do for it, and the rest of the bag stays apart from what is queued. -/
theorem Step.calm_execute {bags : List (Bag WorkItem)} {errands : List (Errand τ)}
    {m : Moment ε τ σ} (h : Step ⟨w, bag :: bags, errands⟩ (.execute item) m) (hb : bag.Sound)
    (hladen : w.Laden (· ∈ bag.present)) (htake : bag.take = (some item, rest)) :
    Calm (· ∈ rest.present) [⟨.execute item, w⟩] m.world := by
  have hbusy := hladen.agenda.busy (.inr (Bag.take_eq_some hb htake).1)
  have start : ∀ {v : World ε τ σ}, v.Laden (· ∈ rest.present) →
      (∀ item ∈ w.nextBag.present, item ∈ v.nextBag.present) →
      Calm (· ∈ rest.present) [⟨.execute item, w⟩] v := fun hv hnext =>
    ⟨hv, fun x hx => by rwa [List.mem_singleton.mp hx]⟩
  cases h with
  | skip _ hdone =>
    cases item with
    | send | notify | task => exact absurd hdone hbusy
  | @send _ _ _ _ _ n tokens _ hd =>
    rw [← World.execute_send_flow hd]
    exact start ((hladen.collected hb htake).deliver n tokens) fun item hitem =>
      Flow.growing_deliver (P := fun a => item ∈ a.next.present)
        ⟨fun tokens _ => Agenda.mem_next_post⟩ hitem
  | hear | lose => exact start (hladen.collected hb htake) fun _ => id
  | work => exact start (hladen.withoutTask hb htake) fun _ => id

namespace World

omit [DecidableEq ε] in
/-- An item is counted if there is something to do for it. -/
theorem execute_counts {did : Bool} (hbusy : ¬ w.Done item)
    (h : execute run item w = some (.ok did, w')) : did = true := by
  cases item with
  | send n =>
    obtain ⟨tokens, hd⟩ := Option.ne_none_iff_exists'.mp hbusy
    rw [execute_send run hd rfl] at h
    cases h
    rfl
  | notify n l =>
    obtain ⟨tokens, hd⟩ := Option.ne_none_iff_exists'.mp hbusy
    cases hl : w.engine.listeners[l.index]? with
    | none =>
      rw [execute_lost run hd hl] at h
      cases h
    | some react =>
      rw [execute_heard run hd hl] at h
      obtain ⟨⟨outcome, _⟩, -, heq⟩ := Option.map_eq_some_iff.mp h
      cases outcome <;> cases heq
      rfl
  | task id =>
    obtain ⟨task, ht⟩ := Option.ne_none_iff_exists'.mp hbusy
    rw [execute_task run ht] at h
    obtain ⟨⟨outcome, _⟩, -, heq⟩ := Option.map_eq_some_iff.mp h
    cases outcome <;> cases heq
    rfl

omit [DecidableEq ε] in
theorem Laden.not_done (hb : bag.Sound) (h : w.Laden (· ∈ bag.present))
    (htake : bag.take = (some item, rest)) : ¬ w.Done item := by
  have hbusy := h.agenda.busy (.inr (Bag.take_eq_some hb htake).1)
  cases item with
  | send | notify | task => exact hbusy

/-- **An item of a bag is executed by a plain collaborator.** -/
theorem Laden.execution (hrun : Runner.Logs (fun _ => True) run deeds) (hb : bag.Sound)
    (h : w.Laden (· ∈ bag.present)) (htake : bag.take = (some item, rest))
    (hplain : ∀ y ∈ (w.execution run deeds item).deeds, y.deed.isPlain) :
    (w.execution run deeds item).Steady rest := by
  have hlogged : Logged (fun _ => True) ⟨w, [bag], []⟩ (w.executeDeeds run deeds item) [rest] []
      (execute run item w) :=
    execute_logged hrun (Staff.only_of_forall (fun _ => trivial) w.staff) htake
  obtain ⟨m', hfollows, hend⟩ := hlogged
  obtain ⟨m₁, hfirst, hcourse⟩ : ∃ m₁, Step ⟨w, [bag], []⟩ (.execute item) m₁ ∧
      Course m₁ (w.execution run deeds item).deeds m' := by
    cases hfollows.course with
    | cons hstep hrest => exact ⟨_, hstep, hrest⟩
  have hcalm₁ := hfirst.calm_execute hb h htake
  have hcalm : ∀ {answer w'}, execute run item w = some (answer, w') →
      Calm (· ∈ rest.present) (w.execution run deeds item).entries w' := fun hdone => by
    obtain rfl := hend _ _ hdone
    exact hcourse.calm hplain hcalm₁
  obtain ⟨hmem, hrest, -⟩ := Bag.take_eq_some hb htake
  refine ⟨h.agenda.apart hmem, fun v hv x hx => ?_, fun {answer w₁} hdone v hv => ?_,
    fun hdone => (hcalm hdone).laden, execute_counts (h.not_done hb htake)⟩
  · rcases List.mem_append.mp hv with hv | hv
    · obtain ⟨y, hy, rfl⟩ := List.mem_map.mp hv
      rcases List.mem_cons.mp hy with rfl | hy
      · exact h.agenda.apart ((hrest x).mp hx).2
      · exact (hcourse.laden_of_mem hplain hcalm₁ hy).agenda.apart hx
    · obtain ⟨⟨answer, v⟩, hdone, rfl⟩ := List.mem_map.mp hv
      exact (hcalm (Option.mem_toList.mp hdone)).laden.agenda.apart hx
  · rcases List.mem_append.mp hv with hv | hv
    · obtain ⟨y, hy, rfl⟩ := List.mem_map.mp hv
      exact (hcalm hdone).stays y hy
    · obtain ⟨⟨answer, v⟩, hdone', rfl⟩ := List.mem_map.mp hv
      cases hdone.symm.trans (Option.mem_toList.mp hdone')
      exact fun _ hitem => hitem

end World

end Draining

/-- **How a bag is worked off** from the world `w` to the world `w'`: what is executed, and the
progress made. -/
structure Drained (w : World ε τ σ) (bag : Bag WorkItem) (executed : Nat)
    (done : List (Execution ε τ σ)) (p : World.Progress) (w' : World ε τ σ) : Prop where
  grows : ∀ item ∈ w.nextBag.present, item ∈ w'.nextBag.present
  fresh : ∀ x ∈ done, x.item ∉ x.world.nextBag.present
  stays : ∀ x ∈ done, ∀ v ∈ x.worlds, ∀ item ∈ v.nextBag.present, item ∈ w'.nextBag.present
  /-- what comes later is not queued before -/
  apart : done.Pairwise fun x y => ∀ v ∈ x.worlds, y.item ∉ v.nextBag.present
  order : bag.handOut = done.map Execution.item ++ p.bag.handOut
  sound : p.bag.Sound
  laden : w'.Laden (· ∈ p.bag.present)
  finished : p.failure = none → p.bag.present = [] ∧ p.executed = executed + done.length ∧
    ∀ x ∈ done, ∃ v, x.outcome = some (.ok true, v)
  failed : ∀ failure, p.failure = some failure →
    ∃ before x v, done = before ++ [x] ∧ x.outcome = some (.error failure, v)

namespace Drained

variable {w w₁ w' : World ε τ σ} {bag rest : Bag WorkItem} {executed : Nat} {x : Execution ε τ σ}
  {done : List (Execution ε τ σ)} {p : World.Progress}

/-- There is nothing left. -/
theorem nil (hbag : bag.present = []) (hrest : rest.present = []) (h : w.Laden fun _ => False) :
    Drained w bag executed [] ⟨rest, executed, none⟩ w where
  grows _ hitem := hitem
  fresh _ hx := absurd hx List.not_mem_nil
  stays _ hx := absurd hx List.not_mem_nil
  apart := .nil
  order := by rw [Bag.handOut_of_nil hbag, Bag.handOut_of_nil hrest]; rfl
  sound := ⟨by simp [hrest], by simp [hrest]⟩
  laden := h.mono fun x hx => by simp [hrest] at hx
  finished _ := ⟨hrest, rfl, fun _ hx => absurd hx List.not_mem_nil⟩
  failed _ hp := by cases hp

/-- The next item fails. -/
theorem fail {failure : Failure} (hb : bag.Sound) (htake : bag.take = (some x.item, rest))
    (hx : x.Steady rest) (hdone : x.outcome = some (.error failure, w')) :
    Drained x.world bag executed [x] ⟨rest, executed, some failure⟩ w' where
  grows := hx.stays hdone x.world (by simp [Execution.worlds, Execution.entries])
  fresh y hy := by
    rw [List.mem_singleton.mp hy]
    exact hx.fresh
  stays y hy := by
    rw [List.mem_singleton.mp hy]
    exact hx.stays hdone
  apart := List.pairwise_singleton _ _
  order := Bag.handOut_take htake
  sound := (Bag.take_eq_some hb htake).2.2
  laden := hx.laden hdone
  finished := nofun
  failed failure' h := by
    cases h
    exact ⟨[], x, w', rfl, hdone⟩

/-- The next item succeeds, and the rest of the bag is worked off after it. -/
theorem cons (htake : bag.take = (some x.item, rest)) (hx : x.Steady rest)
    (hdone : x.outcome = some (.ok true, w₁)) (h : Drained w₁ rest (executed + 1) done p w') :
    Drained x.world bag executed (x :: done) p w' where
  grows item hitem := h.grows item
    (hx.stays hdone x.world (by simp [Execution.worlds, Execution.entries]) item hitem)
  fresh := List.forall_mem_cons.mpr ⟨hx.fresh, h.fresh⟩
  stays := List.forall_mem_cons.mpr
    ⟨fun v hv item hitem => h.grows item (hx.stays hdone v hv item hitem), h.stays⟩
  apart := by
    refine List.pairwise_cons.mpr ⟨fun y hy v hv => ?_, h.apart⟩
    have hrest : y.item ∈ rest.handOut := by
      rw [h.order]
      exact List.mem_append_left _ (List.mem_map_of_mem hy)
    exact hx.apart v hv y.item (Bag.mem_of_mem_pendingOf hrest)
  order := by rw [Bag.handOut_take htake, h.order]; rfl
  sound := h.sound
  laden := h.laden
  finished hp := by
    obtain ⟨hnil, hcount, hall⟩ := h.finished hp
    refine ⟨hnil, ?_, List.forall_mem_cons.mpr ⟨⟨w₁, hdone⟩, hall⟩⟩
    rw [List.length_cons]
    omega
  failed failure hp := by
    obtain ⟨before, y, v, rfl, hy⟩ := h.failed failure hp
    exact ⟨x :: before, y, v, rfl, hy⟩

/-- Without a failure all is executed. -/
theorem items_eq (h : Drained w bag executed done p w') (hp : p.failure = none) :
    done.map Execution.item = bag.handOut := by
  rw [h.order, Bag.handOut_of_nil (h.finished hp).1, List.append_nil]

/-- What is not executed is left. -/
theorem mem_left (h : Drained w bag executed done p w') (hb : bag.Sound) {item : WorkItem}
    (hitem : item ∈ bag.present) (hnot : item ∉ done.map Execution.item) :
    item ∈ p.bag.present := by
  rw [← Bag.mem_handOut hb, h.order, List.mem_append] at hitem
  exact (Bag.mem_handOut h.sound).mp (hitem.resolve_left hnot)

end Drained

namespace World

section Rounds

variable [DecidableEq ε] {run : Runner ε τ σ} {deeds : Chronicler ε τ σ} {w w' : World ε τ σ}
  {bag : Bag WorkItem}

/-- **Plain collaborators work off a bag** in its order, and apart from what they queue. -/
theorem Laden.drains (hrun : Runner.Logs (fun _ => True) run deeds) {count executed : Nat}
    (hcount : bag.present.length ≤ count) (hb : bag.Sound) (h : w.Laden (· ∈ bag.present))
    (hplain : ∀ x ∈ bagExecutions run deeds count bag w, ∀ y ∈ x.deeds, y.deed.isPlain)
    {p : Progress} (hdone : executeBag run count bag executed w = some (p, w')) :
    Drained w bag executed (bagExecutions run deeds count bag w) p w' := by
  induction count generalizing bag executed w with
  | zero =>
    cases hdone
    have hnil : bag.present = [] := List.length_eq_zero_iff.mp (Nat.le_zero.mp hcount)
    exact .nil hnil hnil (h.mono fun _ => False.elim)
  | succ count ih =>
    unfold executeBag at hdone
    unfold bagExecutions at hplain ⊢
    cases htake : bag.take with
    | mk item rest =>
      rw [htake] at hdone hplain
      cases item with
      | none =>
        cases hdone
        have hnil : bag.present = [] := Bag.take_eq_none hb (congrArg Prod.fst htake)
        exact .nil hnil ((Bag.present_of_take_none htake).trans hnil) (h.mono fun _ => False.elim)
      | some item =>
        dsimp only at hdone hplain ⊢
        rw [List.forall_mem_cons] at hplain
        have hx : (w.execution run deeds item).Steady rest :=
          Laden.execution hrun hb h htake hplain.1
        cases hitem : execute run item w with
        | none =>
          rw [hitem] at hdone
          cases hdone
        | some outcome =>
          rw [hitem] at hdone hplain
          obtain ⟨answer, w₁⟩ := outcome
          cases answer with
          | error failure =>
            cases hdone
            exact .fail hb htake hx hitem
          | ok did =>
            cases hx.counts hitem
            have hlength := Bag.length_take htake
            have hrest := (Bag.take_eq_some hb htake).2.2
            have hladen := hx.laden hitem
            exact .cons htake hx hitem (ih (by omega) hrest hladen hplain.2 hdone)

/-! ## 6. Rounds -/

omit [DecidableEq ε] in
/-- What is queued after a round, and what a failure has left over. -/
theorem mem_nextBag_finishRound {p : Progress} (hb : p.bag.Sound) {item : WorkItem} :
    item ∈ (finishRound p w).2.nextBag.present ↔
      item ∈ w.nextBag.present ∨ (p.failure ≠ none ∧ item ∈ p.bag.present) := by
  obtain ⟨bag, executed, failure⟩ := p
  cases failure with
  | none => simp [finishRound, nextBag, flow]
  | some failure =>
    simp only [ne_eq, reduceCtorEq, not_false_eq_true, true_and]
    rw [or_comm]
    exact Agenda.mem_next_putBack hb

omit [DecidableEq ε] in
theorem Laden.finishRound {p : Progress} (hb : p.bag.Sound) (h : w.Laden (· ∈ p.bag.present)) :
    (World.finishRound p w).2.Laden fun _ => False := by
  obtain ⟨bag, executed, failure⟩ := p
  cases failure with
  | none => exact (h.mono fun _ => False.elim).congr rfl rfl rfl
  | some failure => exact ⟨h.agenda.putBack hb, h.fresh⟩

/-- **A round of plain collaborators** has nothing to do, or works off the bag that was queued. -/
theorem Laden.round (hrun : Runner.Logs (fun _ => True) run deeds) (h : w.Laden fun _ => False)
    (hplain : ∀ x ∈ w.roundExecutions run deeds, ∀ y ∈ x.deeds, y.deed.isPlain)
    {answer : Except Failure (Option Nat)} (hround : round run w = some (answer, w')) :
    (w.nextBag.present = [] ∧ w.roundExecutions run deeds = [] ∧ answer = .ok none ∧ w' = w) ∨
      ∃ w₀ p w₁, Drained w₀ w.nextBag 0 (w.roundExecutions run deeds) p w₁ ∧
        World.finishRound p w₁ = (answer, w') := by
  unfold roundExecutions at hplain ⊢
  cases hstart : w.flow.agenda.startRound with
  | none =>
    rw [round_idle run hstart] at hround
    cases hround
    exact .inl ⟨Agenda.startRound_eq_none.mp hstart, rfl, rfl, rfl⟩
  | some start =>
    obtain ⟨bag, agenda⟩ := start
    rw [round_busy run hstart] at hround
    rw [hstart] at hplain
    obtain ⟨⟨p, w₁⟩, hp, hfinish⟩ := Option.map_eq_some_iff.mp hround
    obtain ⟨hsound, hagenda⟩ := h.agenda.startRound hstart
    have hbegun : (w.begun agenda).Laden (· ∈ bag.present) := ⟨hagenda, h.fresh⟩
    have hdrained := hbegun.drains hrun (Nat.le_refl _) hsound hplain hp
    obtain ⟨rfl, -⟩ := Agenda.startRound_eq_some hstart
    exact .inr ⟨w.begun agenda, p, w₁, hdrained, hfinish⟩

end Rounds

variable [DecidableEq ε]

/-- The items that a round executes, with what is done for them. -/
def executions (depth : Nat) (w : World ε τ σ) : List (Execution ε τ σ) :=
  w.roundExecutions (World.run depth) (World.deeds depth)

/-- In the round that begins now, collaborators neither condense nor reset, and rounds that they
begin have nothing to do. -/
def PlainRound (depth : Nat) (w : World ε τ σ) : Prop :=
  ∀ x ∈ w.executions depth, ∀ y ∈ x.deeds, y.deed.isPlain

instance (depth : Nat) (w : World ε τ σ) : Decidable (w.PlainRound depth) :=
  inferInstanceAs (Decidable (∀ x ∈ w.executions depth, ∀ y ∈ x.deeds, y.deed.isPlain))

/-- **The worlds between rounds.** While no round is under way anything may be done, be it asked
from outside or by the discovery of a new variant. In rounds collaborators are plain. -/
inductive Between : World ε τ σ → Prop where
  | new (settings : Settings) (shared : σ) (active : Bool) :
      Between ⟨.new settings, shared, active⟩
  | install {w} (semantics : Option (Semantics ε τ σ)) (tokenManager : Option (TokenManager σ τ))
      (environment : Option Environment) (phase : Phase) : Between w →
      Between { w with engine := { w.engine with semantics, tokenManager, environment, phase } }
  | step {w errands d w' errands'} : Between w →
      Step ⟨w, [], errands⟩ d ⟨w', [], errands'⟩ → Between w'
  | round {w depth answer w'} : Between w → w.PlainRound depth →
      World.round (World.run depth) w = some (answer, w') → Between w'

namespace Between

variable {w w' : World ε τ σ}

theorem tidy (h : w.Between) : Moment.Tidy ⟨w, [], []⟩ := by
  induction h with
  | new settings shared active =>
    have hnew : Reachable (fun _ => True) (⟨.new settings, shared, active⟩ : World ε τ σ) :=
      .new settings shared active
    exact hnew.tidy
  | install _ _ _ _ _ ih => exact ⟨ih.grouped, ih.sound, ih.agenda⟩
  | step _ hstep ih =>
    obtain ⟨hgrouped, hsound, hagenda⟩ := hstep.tidy ⟨ih.grouped, ih.sound, ih.agenda⟩
    exact ⟨hgrouped, hsound, hagenda⟩
  | @round w depth _ _ _ _ hround ih =>
    obtain ⟨m', hcourse, hend⟩ := run_course (depth + 1) (.round fun _ => .done) w [] []
    obtain rfl := hend _ _ (run_round hround)
    exact hcourse.tidy ih

/-- **Between rounds there is something to do for every queued item.** -/
theorem laden (h : w.Between) : w.Laden fun _ => False := by
  induction h with
  | new settings shared active => exact .new settings shared active
  | install _ _ _ _ _ ih => exact ih.congr rfl rfl rfl
  | step h hstep ih =>
    cases hstep with
    | look | discovered | answer => exact ih
    | ask q => exact ih.ask_outside h.tidy.grouped q
    | discover _ hfind _ hcreate => exact hcreate ▸ (ih.create _ hfind).1
  | round _ hplain hround ih =>
    rcases ih.round (run_logged _) hplain hround with
      ⟨-, -, -, rfl⟩ | ⟨_, p, w₁, hdrained, hfinish⟩
    · exact ih
    · have hladen := hdrained.laden.finishRound hdrained.sound
      rwa [hfinish] at hladen

/-- What is done without a round leads from one world between rounds to another. -/
theorem course {errands : List (Errand τ)} {log : List (Entry ε τ σ)} {m : Moment ε τ σ}
    (h : w.Between) (hcourse : Course ⟨w, [], errands⟩ log m)
    (hlog : ∀ x ∈ log, x.deed ≠ .beginRound) : m.world.Between ∧ m.bags = [] := by
  generalize hm₀ : (⟨w, [], errands⟩ : Moment ε τ σ) = m₀ at hcourse
  induction hcourse generalizing w errands with
  | nil =>
    subst hm₀
    exact ⟨h, rfl⟩
  | @cons _ d m₁ _ _ hstep _ ih =>
    obtain ⟨hd, hrest⟩ := List.forall_mem_cons.mp hlog
    subst hm₀
    have hbags : m₁.bags = [] := by
      cases hstep with
      | beginRound => exact absurd rfl hd
      | _ => rfl
    obtain ⟨w₁, bags, errands₁⟩ := m₁
    subst hbags
    exact ih (h.step hstep) hrest rfl

/-- **A run that begins no round** leads from one world between rounds to another, whatever it asks
for and whatever variants it discovers. -/
theorem run {depth : Nat} {r : Routine ε τ σ} {answer : Except Failure Unit} (h : w.Between)
    (hrun : World.run depth r w = some (answer, w'))
    (hdeeds : ∀ x ∈ World.deeds depth r w, x.deed ≠ .beginRound) : w'.Between := by
  obtain ⟨m', hcourse, hend⟩ := run_course depth r w [] []
  obtain rfl := hend _ _ hrun
  exact (h.course hcourse hdeeds).1

/-- **Rounds are apart.** A round takes up items that were queued when it began, in the order in
which their bag hands them out, each at most once. What is queued at any time while it works is
queued when it ends, and it does not take it up any more. A round that succeeds has executed all
that was queued, and answers with the number. A round that fails has failed at the last item it took
up, and what it has not taken up is queued again. -/
theorem round_isolated {depth : Nat} {answer : Except Failure (Option Nat)} (h : w.Between)
    (hplain : w.PlainRound depth) (hround : World.round (World.run depth) w = some (answer, w')) :
    let done := w.executions depth
    done.flatMap Execution.entries = w.roundDeeds (World.run depth) (World.deeds depth) ∧
    (w.nextBag.handOut.Nodup ∧ ∀ item, item ∈ w.nextBag.handOut ↔ item ∈ w.nextBag.present) ∧
    done.map Execution.item <+: w.nextBag.handOut ∧
    (∀ x ∈ done, x.item ∉ x.world.nextBag.present ∧
      ∀ v ∈ x.worlds, ∀ item ∈ v.nextBag.present, item ∈ w'.nextBag.present) ∧
    (done.Pairwise fun x y => ∀ v ∈ x.worlds, y.item ∉ v.nextBag.present) ∧
    match answer with
    | .ok none => w.nextBag.present = [] ∧ w' = w
    | .ok (some k) => done.map Execution.item = w.nextBag.handOut ∧ k = done.length ∧
        ∀ x ∈ done, ∃ v, x.outcome = some (.ok true, v)
    | .error failure =>
        (∃ before x v, done = before ++ [x] ∧ x.outcome = some (.error failure, v)) ∧
        ∀ item ∈ w.nextBag.present, item ∉ done.map Execution.item → item ∈ w'.nextBag.present := by
  intro done
  have hsound : w.nextBag.Sound := h.laden.agenda.sound
  refine ⟨(roundDeeds_eq _ _ w).symm,
    ⟨Bag.nodup_pendingOf hsound.nodup, fun _ => Bag.mem_handOut hsound⟩, ?_⟩
  rcases h.laden.round (run_logged depth) hplain hround with
    ⟨hnil, hdone, rfl, rfl⟩ | ⟨w₀, p, w₁, hdrained, hfinish⟩
  · have hdone : done = [] := hdone
    rw [hdone]
    exact ⟨List.nil_prefix, by simp, .nil, hnil, rfl⟩
  have hafter : ∀ item, item ∈ w'.nextBag.present ↔
      item ∈ w₁.nextBag.present ∨ (p.failure ≠ none ∧ item ∈ p.bag.present) := by
    intro item
    rw [← mem_nextBag_finishRound hdrained.sound, hfinish]
  refine ⟨⟨p.bag.handOut, hdrained.order.symm⟩, fun x hx => ⟨hdrained.fresh x hx,
    fun v hv item hitem => (hafter item).mpr (.inl (hdrained.stays x hx v hv item hitem))⟩,
    hdrained.apart, ?_⟩
  obtain ⟨left, executed, failure⟩ := p
  cases failure with
  | none =>
    obtain ⟨-, hcount, hall⟩ := hdrained.finished rfl
    cases hfinish
    exact ⟨hdrained.items_eq rfl, hcount.trans (Nat.zero_add _), hall⟩
  | some failure =>
    cases hfinish
    refine ⟨hdrained.failed failure rfl, fun item hitem hnot => ?_⟩
    exact (hafter item).mpr (.inr ⟨nofun, hdrained.mem_left hsound hitem hnot⟩)

theorem ask (h : w.Between) (q : Request ε τ σ) : (q.perform w).Between := by
  have hstep : Step ⟨w, [], []⟩ (.ask q) ⟨q.perform w, [], []⟩ := .ask q
  exact h.step hstep

theorem asks (h : w.Between) (requests : List (Request ε τ σ)) :
    (requests.foldl (fun w q => q.perform w) w).Between :=
  List.foldlRecOn (motive := fun w' : World ε τ σ => w'.Between) requests _ h
    fun _ hw q _ => hw.ask q

end Between

/-- Two nodes in a row. The listener at the first one sends another token there, and postpones two
tasks, of which the first fails. -/
def echoRequests : List (Request Unit Nat Unit) :=
  [.addNode, .addNode,
    .listen ⟨0⟩ fun n _ => .deliver n (.singleton 6) fun _ =>
      .postpone (.fail .noRoots) fun _ => .postpone .done fun _ => .done,
    .link ⟨0⟩ ⟨1⟩, .deliver ⟨0⟩ (.singleton 5)]

def echoWorld : World Unit Nat Unit :=
  echoRequests.foldl (fun w q => q.perform w) ⟨.new default, (), true⟩

/-- The world after the round in which the listener is called. -/
def echoedWorld : World Unit Nat Unit :=
  ((World.round (World.run 1) echoWorld).getD (.ok none, echoWorld)).2

/-- The listener is called once in the first round, though it is queued again there. The second
round fails at a task that was postponed in the first, and leaves the listener queued. -/
theorem round_isolated_echoWorld : ∃ w',
    World.round (World.run 1) echoWorld = some (.ok (some 2), echoedWorld) ∧
    (echoWorld.executions 1).map Execution.item = [.notify ⟨0⟩ ⟨0⟩, .send ⟨1⟩] ∧
    .notify ⟨0⟩ ⟨0⟩ ∈ echoedWorld.nextBag.present ∧
    World.round (World.run 1) echoedWorld = some (.error .noRoots, w') ∧
    (echoedWorld.executions 1).map Execution.item = [.task ⟨1⟩, .task ⟨0⟩] ∧
    .notify ⟨0⟩ ⟨0⟩ ∈ w'.nextBag.present := by
  have hecho : echoWorld.Between := (Between.new default () true).asks echoRequests
  have hround : World.round (World.run 1) echoWorld = some (.ok (some 2), echoedWorld) := rfl
  obtain ⟨-, -, -, -, -, hitems, -, -⟩ := hecho.round_isolated (by decide) hround
  obtain ⟨w', hagain⟩ : ∃ w',
    World.round (World.run 1) echoedWorld = some (.error .noRoots, w') := ⟨_, rfl⟩
  have hechoed : echoedWorld.Between := hecho.round (by decide) hround
  obtain ⟨-, -, -, -, -, -, hleft⟩ := hechoed.round_isolated (by decide) hagain
  exact ⟨w', hround, hitems.trans (by decide), by decide, hagain, by decide,
    hleft _ (by decide) (by decide)⟩

end World

end ValueFlow
