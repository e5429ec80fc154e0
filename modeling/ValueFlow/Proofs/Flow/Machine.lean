import ValueFlow.Proofs.Flow.Progress

/-!
# Working on a flow step by step

A flow is built and worked off in steps that may come in any order: nodes, links, listeners and
filters are added, tokens are handed over, tasks are scheduled, rounds are begun, worked off item by
item or broken off, and cycles are condensed in between. `Step` is one such step, `Run` a sequence
of them from an empty flow.

`Machine.Inv` holds along every run: the flow has neither lost nor invented tokens, everything that
waits is in a bag, and links and filters are those that were asked for.
-/

namespace ValueFlow

open ValueFlow.Flow

variable {φ τ : Type} [Ordered τ]

/-- A flow and the bags of rounds that are being worked off. -/
structure Machine (φ τ : Type) [Ordered τ] where
  flow : Flow φ τ
  bags : List (Bag WorkItem)

/-- What can be done in a step. -/
inductive Command (φ τ : Type) [Ordered τ] where
  | addNode (label : Option Label)
  | link (source target : NodeId)
  /-- hand over tokens that go to the node at once -/
  | deliver (node : NodeId) (tokens : TokenSet τ)
  /-- hand over tokens that wait for the next round -/
  | offer (node : NodeId) (tokens : TokenSet τ)
  | subscribe (node : NodeId) (listener : ListenerId)
  /-- queue a task for the next round -/
  | schedule (task : TaskId)
  | setFilter (node : NodeId) (filter : φ)
  /-- a request for a filter that is refused -/
  | refuse (node : NodeId) (filter : φ)
  | beginRound
  /-- execute the next item of a bag -/
  | execute
  /-- put away a bag that is worked off -/
  | finish
  /-- queue again what is left in a bag -/
  | putBack
  | condense (roots : List NodeId)

/-- The command neither queues anything by itself nor hands out the queue. -/
def Command.isInner : Command φ τ → Bool
  | .offer _ _ | .subscribe _ _ | .schedule _ | .beginRound | .putBack => false
  | _ => true

namespace Machine

variable (sieve : φ → TokenSet τ → TokenSet τ)

def start (order : BagOrder) : Machine φ τ := ⟨.empty order, []⟩

/-- **One step.** Handles name nodes that exist. A node gets at most one filter, which decides
token by token, and gets it before it has tokens. A bag is only put away empty. -/
inductive Step : Machine φ τ → Command φ τ → Machine φ τ → Prop where
  | addNode (m : Machine φ τ) (label : Option Label) :
      Step m (.addNode label) { m with flow := (m.flow.addNode label).2 }
  | link (m : Machine φ τ) {u v : NodeId} (hu : m.flow.graph.contains u)
      (hv : m.flow.graph.contains v) :
      Step m (.link u v) { m with flow := (m.flow.link sieve u v).2 }
  | deliver (m : Machine φ τ) {n : NodeId} (tokens : TokenSet τ) (hn : m.flow.graph.contains n) :
      Step m (.deliver n tokens) { m with flow := (m.flow.deliver sieve n tokens).2 }
  | offer (m : Machine φ τ) {n : NodeId} (tokens : TokenSet τ) (hn : m.flow.graph.contains n) :
      Step m (.offer n tokens) { m with flow := (m.flow.offer n tokens).2 }
  | subscribe (m : Machine φ τ) {n : NodeId} (l : ListenerId) (hn : m.flow.graph.contains n) :
      Step m (.subscribe n l) { m with flow := m.flow.subscribe sieve n l }
  | schedule (m : Machine φ τ) (id : TaskId) :
      Step m (.schedule id)
        { m with flow := { m.flow with agenda := (m.flow.agenda.schedule (.task id)).2 } }
  | setFilter (m : Machine φ τ) {n : NodeId} {filter : φ} {f : Flow φ τ}
      (hn : m.flow.graph.contains n) (hretains : Retains sieve filter)
      (hfirst : m.flow.graph.filter? n = none) (hempty : m.flow.graph.tokens n = ∅)
      (hok : m.flow.setFilter n filter = .ok f) :
      Step m (.setFilter n filter) { m with flow := f }
  | refuse (m : Machine φ τ) {n : NodeId} {filter : φ} {e : UsageError}
      (herror : m.flow.setFilter n filter = .error e) : Step m (.refuse n filter) m
  | beginRound (m : Machine φ τ) {bag : Bag WorkItem} {agenda : Agenda τ}
      (hbag : m.flow.agenda.startRound = some (bag, agenda)) :
      Step m .beginRound ⟨{ m.flow with agenda }, bag :: m.bags⟩
  | execute (flow : Flow φ τ) (before after : List (Bag WorkItem)) {bag rest : Bag WorkItem}
      {item : WorkItem} (htake : bag.take = (some item, rest)) :
      Step ⟨flow, before ++ bag :: after⟩ .execute
        ⟨(flow.execute sieve item).2, before ++ rest :: after⟩
  | finish (flow : Flow φ τ) (before after : List (Bag WorkItem)) {bag : Bag WorkItem}
      (hempty : bag.isEmpty) : Step ⟨flow, before ++ bag :: after⟩ .finish ⟨flow, before ++ after⟩
  | putBack (flow : Flow φ τ) (before after : List (Bag WorkItem)) (bag : Bag WorkItem) :
      Step ⟨flow, before ++ bag :: after⟩ .putBack
        ⟨{ flow with agenda := flow.agenda.putBack bag }, before ++ after⟩
  | condense (m : Machine φ τ) (roots : List NodeId) :
      Step m (.condense roots) { m with flow := (m.flow.condense roots).2 }

/-- **A run from an empty flow**, with the commands that were carried out. -/
inductive Run (order : BagOrder) : List (Command φ τ) → Machine φ τ → Prop where
  | start : Run order [] (start order)
  | step {cs : List (Command φ τ)} {m m' : Machine φ τ} {c : Command φ τ} :
      Run order cs m → Step sieve m c m' → Run order (cs ++ [c]) m'

/-- No item is queued, and no bag is being worked off. -/
def Quiet (m : Machine φ τ) : Prop := m.flow.agenda.hasWork = false ∧ m.bags = []

end Machine

/-- The token was handed to the node. -/
def Handed (cs : List (Command φ τ)) (v : NodeId) (t : τ) : Prop :=
  ∃ tokens : TokenSet τ, (.deliver v tokens ∈ cs ∨ .offer v tokens ∈ cs) ∧ t ∈ tokens

/-! ## 1. What holds along a run -/

namespace Machine

variable {sieve : φ → TokenSet τ → TokenSet τ} {cs : List (Command φ τ)} {c : Command φ τ}
  {m m' : Machine φ τ} {order : BagOrder}

/-- **What holds along a run**: no token is lost or invented, what waits is in a bag, and links and
filters are those that were asked for. -/
structure Inv (sieve : φ → TokenSet τ → TokenSet τ) (cs : List (Command φ τ))
    (m : Machine φ τ) : Prop where
  flow : m.flow.Inv sieve (Handed cs) noTransit
  kept : m.flow.agenda.Kept fun item => ∃ bag ∈ m.bags, item ∈ bag.present
  sound : ∀ bag ∈ m.bags, bag.Sound
  links : ∀ u v, v ∈ m.flow.graph.successors u ↔ .link u v ∈ cs
  filters : ∀ v filter, m.flow.graph.filter? v = some filter ↔ .setFilter v filter ∈ cs

theorem inv_start (order : BagOrder) : Inv sieve [] (start order : Machine φ τ) where
  flow := by
    have hempty : Handed ([] : List (Command φ τ)) = fun _ _ => False := by
      funext v t
      exact eq_false fun ⟨_, h, _⟩ => h.elim List.not_mem_nil List.not_mem_nil
    rw [hempty]
    exact inv_empty order
  kept := Agenda.kept_empty order _
  sound := nofun
  links u v := by
    have hnil : (start order : Machine φ τ).flow.graph.successors u = [] := rfl
    rw [hnil]
    exact ⟨nofun, nofun⟩
  filters v filter := by
    have hnone : (start order : Machine φ τ).flow.graph.filter? v = none := rfl
    rw [hnone]
    exact ⟨nofun, nofun⟩

/-- A command that hands nothing over. -/
theorem handed_append (hdeliver : ∀ n tokens, c ≠ .deliver n tokens)
    (hoffer : ∀ n tokens, c ≠ .offer n tokens) : Handed (cs ++ [c]) = Handed cs := by
  funext v t
  refine propext (exists_congr fun tokens => and_congr_left fun _ => ?_)
  simp only [List.mem_append, List.mem_singleton]
  refine or_congr (or_iff_left (Ne.symm (hdeliver v tokens))) ?_
  exact or_iff_left (Ne.symm (hoffer v tokens))

/-- A command that hands `tokens` to `n`. -/
theorem handed_hand {n : NodeId} {tokens : TokenSet τ}
    (hc : c = .deliver n tokens ∨ c = .offer n tokens) :
    Handed (cs ++ [c]) = fun v t => Handed cs v t ∨ (v = n ∧ t ∈ tokens) := by
  funext v t
  refine propext ⟨?_, ?_⟩
  · rintro ⟨s, hs, ht⟩
    simp only [List.mem_append, List.mem_singleton] at hs
    rcases hs with (hs | hs) | (hs | hs)
    · exact .inl ⟨s, .inl hs, ht⟩
    · rcases hc with rfl | rfl
      · cases hs
        exact .inr ⟨rfl, ht⟩
      · cases hs
    · exact .inl ⟨s, .inr hs, ht⟩
    · rcases hc with rfl | rfl
      · cases hs
      · cases hs
        exact .inr ⟨rfl, ht⟩
  · rintro (⟨s, hs, ht⟩ | ⟨rfl, ht⟩)
    · exact ⟨s, hs.imp (List.mem_append_left _) (List.mem_append_left _), ht⟩
    · refine ⟨tokens, ?_, ht⟩
      rcases hc with rfl | rfl
      · exact .inl (List.mem_append_right _ List.mem_cons_self)
      · exact .inr (List.mem_append_right _ List.mem_cons_self)

theorem Inv.links_append (h : Inv sieve cs m) (hc : ∀ u v, c ≠ .link u v)
    (hsucc : ∀ u, m'.flow.graph.successors u = m.flow.graph.successors u) (u v : NodeId) :
    v ∈ m'.flow.graph.successors u ↔ .link u v ∈ cs ++ [c] := by
  rw [hsucc, h.links, List.mem_append, List.mem_singleton]
  exact (or_iff_left (Ne.symm (hc u v))).symm

theorem Inv.filters_append (h : Inv sieve cs m) (hc : ∀ v filter, c ≠ .setFilter v filter)
    (hfilter : ∀ v, m'.flow.graph.filter? v = m.flow.graph.filter? v) (v : NodeId) (filter : φ) :
    m'.flow.graph.filter? v = some filter ↔ .setFilter v filter ∈ cs ++ [c] := by
  rw [hfilter, h.filters, List.mem_append, List.mem_singleton]
  exact (or_iff_left (Ne.symm (hc v filter))).symm

/-- A command that says nothing of the tokens of any node. -/
theorem Inv.of_silent (h : Inv sieve cs m) (hlink : ∀ u v, c ≠ .link u v)
    (hfilter : ∀ v filter, c ≠ .setFilter v filter)
    (hdeliver : ∀ n tokens, c ≠ .deliver n tokens) (hoffer : ∀ n tokens, c ≠ .offer n tokens)
    (hflow : m'.flow.Inv sieve (Handed cs) noTransit)
    (hkept : m'.flow.agenda.Kept fun item => ∃ bag ∈ m'.bags, item ∈ bag.present)
    (hsound : ∀ bag ∈ m'.bags, bag.Sound)
    (hread : ∀ v, m'.flow.graph.successors v = m.flow.graph.successors v ∧
      m'.flow.graph.filter? v = m.flow.graph.filter? v) : Inv sieve (cs ++ [c]) m' where
  flow := by
    rw [handed_append hdeliver hoffer]
    exact hflow
  kept := hkept
  sound := hsound
  links := h.links_append hlink fun u => (hread u).1
  filters := h.filters_append hfilter fun v => (hread v).2

/-- The other bags when one is put away. -/
theorem mem_bags_of_mem {before after : List (Bag WorkItem)} {bag b : Bag WorkItem}
    (hb : b ∈ before ++ after) : b ∈ before ++ bag :: after :=
  (List.mem_append.mp hb).elim (List.mem_append_left _)
    fun hb => List.mem_append_right _ (List.mem_cons_of_mem _ hb)

theorem mem_bags {before after : List (Bag WorkItem)} {bag b : Bag WorkItem}
    (hb : b ∈ before ++ bag :: after) : b = bag ∨ b ∈ before ++ after := by
  rcases List.mem_append.mp hb with hb | hb
  · exact .inr (List.mem_append_left _ hb)
  · exact (List.mem_cons.mp hb).imp id (List.mem_append_right _)

/-- **Every step keeps the invariant.** -/
theorem Inv.step (h : Inv sieve cs m) (hstep : Step sieve m c m') : Inv sieve (cs ++ [c]) m' := by
  cases hstep with
  | addNode _ label =>
    refine h.of_silent nofun nofun nofun nofun (h.flow.addNode label) h.kept h.sound fun v => ?_
    exact ⟨Graph.successors_addNode, Graph.filter?_addNode⟩
  | @link _ u v hu hv =>
    have hhanded : Handed (cs ++ [.link u v]) = Handed cs := handed_append nofun nofun
    refine ⟨?_, growing_link (Agenda.lasting_kept _).toGrowing h.kept, h.sound, fun a b => ?_,
      h.filters_append nofun fun v => filter?_link⟩
    · rw [hhanded]
      exact h.flow.link hu hv
    · rw [mem_successors_link h.flow.wellFormed hu, h.links, List.mem_append, List.mem_singleton]
      simp
  | @deliver _ n tokens hn =>
    refine ⟨?_, growing_deliver (Agenda.lasting_kept _).toGrowing h.kept, h.sound,
      h.links_append nofun fun u => successors_deliver,
      h.filters_append nofun fun v => filter?_deliver⟩
    rw [handed_hand (.inl rfl)]
    exact (h.flow.hand hn tokens).deliver hn
  | @offer _ n tokens hn =>
    refine ⟨?_, Graph.growing_offer (Agenda.lasting_kept _).toGrowing h.kept, h.sound,
      h.links_append nofun fun u => rfl, h.filters_append nofun fun v => rfl⟩
    rw [handed_hand (.inr rfl)]
    exact (h.flow.hand hn tokens).offer
  | @subscribe _ n l hn =>
    refine h.of_silent nofun nofun nofun nofun (h.flow.subscribe n l) (h.kept.post _ _)
      h.sound fun v => ⟨?_, ?_⟩
    · exact Graph.successors_modify fun _ => rfl
    · exact Graph.filter?_modify fun _ => rfl
  | schedule _ id =>
    exact h.of_silent nofun nofun nofun nofun (h.flow.of_agenda fun r t => Iff.rfl)
      (h.kept.schedule _) h.sound fun v => ⟨rfl, rfl⟩
  | @setFilter _ n filter f hn hretains hfirst hempty hok =>
    have hhanded : Handed (cs ++ [.setFilter n filter]) = Handed cs := handed_append nofun nofun
    have hflow := h.flow.setFilter hok hn hempty hfirst hretains
    obtain ⟨hfused, rfl⟩ := setFilter_eq_ok hok
    refine ⟨hhanded ▸ hflow, h.kept, h.sound, h.links_append nofun fun u => ?_,
      fun v filter' => ?_⟩
    · exact Graph.successors_modify fun _ => rfl
    · show (m.flow.graph.modify n _).filter? v = _ ↔ _
      rw [filter?_modify_filter hn, List.mem_append, List.mem_singleton, ← h.filters]
      by_cases hv : v = n
      · subst hv
        rw [if_pos rfl, hfirst]
        simp [eq_comm]
      · rw [if_neg hv]
        refine ⟨.inl, fun h' => h'.elim id fun e => ?_⟩
        cases e
        exact absurd rfl hv
  | refuse _ herror =>
    exact h.of_silent nofun nofun nofun nofun h.flow h.kept h.sound fun v => ⟨rfl, rfl⟩
  | @beginRound _ bag agenda hbag =>
    obtain ⟨hsound, hkept⟩ := h.kept.startRound hbag
    refine h.of_silent nofun nofun nofun nofun
      (h.flow.of_agenda fun r t => Agenda.waits_startRound hbag)
      (hkept.mono fun item hitem => ?_) (List.forall_mem_cons.mpr ⟨hsound, h.sound⟩)
      fun v => ⟨rfl, rfl⟩
    rcases hitem with hi | ⟨b, hb, hi⟩
    · exact ⟨bag, List.mem_cons_self, hi⟩
    · exact ⟨b, List.mem_cons_of_mem _ hb, hi⟩
  | @execute flow before after bag rest item htake =>
    have hbag : bag ∈ before ++ bag :: after := List.mem_append_right _ List.mem_cons_self
    have hmem : rest ∈ before ++ rest :: after := List.mem_append_right _ List.mem_cons_self
    obtain ⟨_, hrest, hsound⟩ := Bag.take_eq_some (h.sound bag hbag) htake
    refine h.of_silent nofun nofun nofun nofun (h.flow.execute fun delta hd => h.kept.nonempty hd)
      (kept_execute h.kept fun x hx hxb => ?_) (fun b hb => ?_) fun v => readings_execute item v
    · obtain ⟨b, hb, hxb⟩ := hxb
      rcases mem_bags hb with rfl | hb
      · exact ⟨rest, hmem, (hrest x).mpr ⟨hx, hxb⟩⟩
      · exact ⟨b, mem_bags_of_mem hb, hxb⟩
    · rcases mem_bags hb with rfl | hb
      · exact hsound
      · exact h.sound b (mem_bags_of_mem hb)
  | @finish flow before after bag hempty =>
    refine h.of_silent nofun nofun nofun nofun h.flow (h.kept.mono fun item hitem => ?_)
      (fun b hb => h.sound b (mem_bags_of_mem hb)) fun v => ⟨rfl, rfl⟩
    obtain ⟨b, hb, hi⟩ := hitem
    rcases mem_bags hb with rfl | hb
    · rw [List.isEmpty_iff.mp hempty] at hi
      exact absurd hi List.not_mem_nil
    · exact ⟨b, hb, hi⟩
  | putBack flow before after bag =>
    have hbag : bag ∈ before ++ bag :: after := List.mem_append_right _ List.mem_cons_self
    refine h.of_silent nofun nofun nofun nofun (h.flow.of_agenda fun r t => Iff.rfl)
      (Agenda.Kept.putBack (h.sound bag hbag) (h.kept.mono fun item hitem => ?_))
      (fun b hb => h.sound b (mem_bags_of_mem hb)) fun v => ⟨rfl, rfl⟩
    obtain ⟨b, hb, hi⟩ := hitem
    rcases mem_bags hb with rfl | hb
    · exact .inl hi
    · exact .inr ⟨b, hb, hi⟩
  | condense _ roots =>
    have hg := h.flow.wellFormed
    exact h.of_silent nofun nofun nofun nofun (h.flow.condense roots)
      (lasting_condense hg.grouped roots (Agenda.lasting_kept _) h.kept)
      h.sound fun v => ⟨successors_condense hg roots v, filter?_condense hg roots v⟩

/-- **The invariant holds along every run.** -/
theorem Run.inv (h : Run sieve order cs m) : Inv sieve cs m := by
  induction h with
  | start => exact inv_start order
  | step _ hstep ih => exact ih.step hstep

/-! ## 2. What a step does to the graph and to the queue -/

/-- Only new nodes are new. -/
theorem Inv.contains_step (h : Inv sieve cs m) (hstep : Step sieve m c m')
    (hc : ∀ label, c ≠ .addNode label) (n : NodeId) :
    m'.flow.graph.contains n = m.flow.graph.contains n := by
  cases hstep with
  | addNode _ label => exact absurd rfl (hc label)
  | link => exact contains_link
  | deliver => exact contains_deliver
  | subscribe => exact Graph.contains_modify
  | setFilter _ _ _ _ _ hok =>
    obtain ⟨_, rfl⟩ := setFilter_eq_ok hok
    exact Graph.contains_modify
  | @execute flow before after bag rest item htake =>
    exact execute_cases (P := fun f => f.graph.contains n = flow.graph.contains n) item
      (fun _ => rfl) fun _ _ _ _ => contains_deliver
  | condense _ roots => exact contains_condense h.flow.wellFormed roots n
  | offer => rfl
  | schedule => rfl
  | refuse => rfl
  | beginRound => rfl
  | finish => rfl
  | putBack => rfl

/-- **An inner step queues work only where the graph grows.** -/
theorem Inv.advances_step (h : Inv sieve cs m) (hstep : Step sieve m c m') (hc : c.isInner) :
    m.flow.Advances m'.flow := by
  cases hstep with
  | addNode _ label => exact advances_addNode label
  | link _ hu _ => exact advances_link h.flow.wellFormed hu
  | deliver _ tokens hn => exact advances_deliver h.flow.wellFormed h.flow.screened hn
  | setFilter _ _ _ _ _ hok => exact advances_setFilter hok
  | execute =>
    refine advances_execute h.flow.wellFormed h.flow.screened fun n tokens hitem hd => ?_
    subst hitem
    exact (h.flow.target hd (h.kept.nonempty hd)).1
  | condense _ roots => exact advances_condense h.flow.wellFormed roots
  | refuse => exact .refl _
  | finish => exact .refl _
  | offer => cases hc
  | subscribe => cases hc
  | schedule => cases hc
  | beginRound => cases hc
  | putBack => cases hc

/-! ## 3. Runs without listeners -/

/-- No node has a listener, and tokens wait for nodes only. -/
structure Unheard (f : Flow φ τ) : Prop where
  listeners : ∀ n, f.graph.listeners n = []
  waits : ∀ {item t}, f.agenda.Waits item t → ∃ n, item = .send n

theorem Unheard.of_passesTo {g : Graph φ τ} (h : ∀ n, g.listeners n = []) {n : NodeId}
    {item : WorkItem} {t : τ} (hpass : g.PassesTo n item t) : ∃ n, item = .send n := by
  rcases hpass with ⟨s, _, e, _⟩ | ⟨l, hl, _⟩
  · exact ⟨_, e⟩
  · rw [h n] at hl
    exact absurd hl List.not_mem_nil

theorem Unheard.deliver {f : Flow φ τ} (h : Unheard f) {n : NodeId} {tokens : TokenSet τ}
    (hg : f.graph.WellFormed) (hs : f.graph.Screened sieve) (hn : f.graph.contains n) :
    Unheard (f.deliver sieve n tokens).2 := by
  have hl : ∀ k, (f.deliver sieve n tokens).2.graph.listeners k = [] := fun k =>
    listeners_deliver.trans (h.listeners k)
  refine ⟨hl, fun hw => ?_⟩
  rcases (waits_deliver hg hs hn).mp hw with hw | ⟨_, m, _, _, hpass⟩
  · exact h.waits hw
  · exact of_passesTo hl hpass

theorem Unheard.collect {f : Flow φ τ} (h : Unheard f) (item : WorkItem) :
    Unheard { f with agenda := (f.agenda.collect item).2 } :=
  ⟨h.listeners, fun hw => h.waits (Agenda.waits_collect.mp hw).2⟩

theorem Unheard.fuse {f : Flow φ τ} (h : Unheard f) {cycle : List NodeId}
    (hc : Fusable f.graph cycle) : Unheard (f.fuse cycle) := by
  have hl : ∀ k, (f.fuse cycle).graph.listeners k = [] := fun k =>
    listeners_fuse.trans (h.listeners k)
  refine ⟨hl, fun hw => ?_⟩
  rcases length_lt_or_two_le cycle with hle | htwo
  · rw [fuse_of_length_le hle] at hw
    exact h.waits hw
  · rcases (waits_fuse hc htwo).mp hw with ⟨hw, _⟩ | ⟨e, _⟩ | ⟨_, m, _, _, _, hpass⟩
    · exact h.waits hw
    · exact ⟨_, e⟩
    · exact of_passesTo hl hpass

/-- Nothing but a subscription makes anybody listen. -/
theorem Inv.unheard_step (h : Inv sieve cs m) (hu : Unheard m.flow) (hstep : Step sieve m c m')
    (hc : ∀ n l, c ≠ .subscribe n l) : Unheard m'.flow := by
  have hwf := h.flow.wellFormed
  cases hstep with
  | addNode _ label => exact ⟨fun n => Graph.listeners_addNode.trans (hu.listeners n), hu.waits⟩
  | link _ hu' hv =>
    refine ⟨fun n => listeners_link.trans (hu.listeners n), fun hw => ?_⟩
    rcases (waits_link hwf h.flow.screened).mp hw with hw | ⟨_, e, _⟩
    · exact hu.waits hw
    · exact ⟨_, e⟩
  | deliver _ tokens hn => exact hu.deliver hwf h.flow.screened hn
  | offer _ tokens hn =>
    refine ⟨hu.listeners, fun hw => ?_⟩
    rcases Graph.waits_offer.mp hw with hw | ⟨e, _⟩
    · exact hu.waits hw
    · exact ⟨_, e⟩
  | @subscribe _ n l hn => exact absurd rfl (hc n l)
  | schedule => exact ⟨hu.listeners, hu.waits⟩
  | setFilter _ _ _ _ _ hok =>
    obtain ⟨_, rfl⟩ := setFilter_eq_ok hok
    refine ⟨fun n => Eq.trans ?_ (hu.listeners n), hu.waits⟩
    exact Graph.listeners_modify fun _ => rfl
  | refuse => exact hu
  | @beginRound _ bag agenda hbag =>
    exact ⟨hu.listeners, fun hw => hu.waits ((Agenda.waits_startRound hbag).mp hw)⟩
  | @execute flow before after bag rest item htake =>
    refine execute_cases (P := Unheard) item (fun _ => hu.collect item) fun n tokens hitem hd => ?_
    subst hitem
    refine (hu.collect _).deliver hwf h.flow.screened ?_
    exact (h.flow.target hd (h.kept.nonempty hd)).1
  | finish => exact hu
  | putBack => exact ⟨hu.listeners, hu.waits⟩
  | condense _ roots =>
    refine condense_induction hwf.grouped roots (fun g hg => ⟨fun n => ?_, hu.waits⟩)
      fun f' c' hc' hu' => hu'.fuse hc'
    exact (Graph.listeners_of_unmarked hg).trans (hu.listeners n)

theorem Run.unheard (h : Run sieve order cs m) (hcs : ∀ n l, .subscribe n l ∉ cs) :
    Unheard m.flow := by
  induction h with
  | start => exact ⟨fun _ => rfl, fun hw => absurd hw (Agenda.waits_empty order _ _)⟩
  | step hrun hstep ih =>
    have hold := ih fun n l hm => hcs n l (List.mem_append_left _ hm)
    refine hrun.inv.unheard_step hold hstep fun n l e => hcs n l ?_
    rw [e]
    exact List.mem_append_right _ List.mem_cons_self

end Machine

end ValueFlow
