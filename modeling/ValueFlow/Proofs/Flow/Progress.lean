import Mathlib.Data.Set.Card
import ValueFlow.Proofs.Flow.Invariant

/-!
# New work comes only with growth

While a flow is worked on, its graph only grows: nodes, links, tokens and components that became
one stay as they are. A graph is therefore a set of facts (`Graph.facts`), and a step leads from one
set to a larger one.

A step that adds no fact queues no work (`Flow.Advances`). Since there are only finitely many facts
about the nodes and tokens of a program, work ends.
-/

namespace ValueFlow

open ValueFlow.Flow

variable {φ τ : Type} [Ordered τ]

/-- What can be said of a graph. -/
inductive Fact (τ : Type) where
  | node (n : NodeId)
  | link (source target : NodeId)
  | token (n : NodeId) (t : τ)
  /-- the two nodes are in one component -/
  | together (n m : NodeId)

/-- The fact is true of the graph. -/
def Graph.Holds (g : Graph φ τ) : Fact τ → Prop
  | .node n => g.contains n
  | .link u v => v ∈ g.successors u
  | .token n t => t ∈ g.tokens n
  | .together n m => g.contains n ∧ g.contains m ∧ g.representative n = g.representative m

/-- The facts that are true of a graph. -/
def Graph.facts (g : Graph φ τ) : Set (Fact τ) := { x | g.Holds x }

/-! ## 1. Finitely many facts -/

/-- The fact is about the first `size` nodes and the tokens `T`. -/
def Fact.Within (size : Nat) (T : Set τ) : Fact τ → Prop
  | .node n => n.index < size
  | .link u v => u.index < size ∧ v.index < size
  | .token n t => n.index < size ∧ t ∈ T
  | .together n m => n.index < size ∧ m.index < size

theorem NodeId.finite_lt (size : Nat) : { n : NodeId | n.index < size }.Finite :=
  (Set.finite_lt_nat size).preimage fun _ _ _ _ h => NodeId.index_inj.mp h

omit [Ordered τ] in
theorem Fact.finite_within (size : Nat) {T : Set τ} (hT : T.Finite) :
    { x : Fact τ | x.Within size T }.Finite := by
  have hn := NodeId.finite_lt size
  refine (((hn.image Fact.node).union (hn.image2 Fact.link hn)).union
    ((hn.image2 Fact.token hT).union (hn.image2 Fact.together hn))).subset fun x hx => ?_
  cases x with
  | node n => exact .inl (.inl ⟨n, hx, rfl⟩)
  | link u v => exact .inl (.inr ⟨u, hx.1, v, hx.2, rfl⟩)
  | token n t => exact .inr (.inl ⟨n, hx.1, t, hx.2, rfl⟩)
  | together n m => exact .inr (.inr ⟨n, hx.1, m, hx.2, rfl⟩)

/-- In a graph of bounded size whose tokens are among `T`, only finitely many facts are true. -/
theorem Graph.facts_within {g : Graph φ τ} (hg : g.WellFormed) {size : Nat} {T : Set τ}
    (hsize : ∀ n, g.contains n → n.index < size) (hT : ∀ n t, t ∈ g.tokens n → t ∈ T)
    {x : Fact τ} (hx : x ∈ g.facts) : x.Within size T := by
  cases x with
  | node n => exact hsize n hx
  | link u v =>
    exact ⟨hsize u (contains_of_mem_successors hx), hsize v (hg.contains_successor hx)⟩
  | token n t => exact ⟨hsize n (contains_of_mem_tokens hg hx), hT n t hx⟩
  | together n m => exact ⟨hsize n hx.1, hsize m hx.2.1⟩

/-- The facts that are still to come become fewer where the graph grows. -/
theorem Graph.ncard_missing_lt {g g' : Graph φ τ} {scope : Set (Fact τ)} (hfinite : scope.Finite)
    (hsub : g.facts ⊆ g'.facts) (hnew : ¬ g'.facts ⊆ g.facts) (hscope : g'.facts ⊆ scope) :
    (scope \ g'.facts).ncard < (scope \ g.facts).ncard := by
  obtain ⟨x, hx, hold⟩ := Set.not_subset.mp hnew
  refine Set.ncard_lt_ncard ⟨fun y hy => ⟨hy.1, fun hg => hy.2 (hsub hg)⟩, fun hle => ?_⟩
    (hfinite.subset Set.sdiff_subset)
  exact (hle ⟨hscope hx, hold⟩).2 hx

/-! ## 2. Steps that advance -/

/-- No fact is lost, and queued tasks stay queued. -/
structure Flow.Grows (f f' : Flow φ τ) : Prop where
  facts : f.graph.facts ⊆ f'.graph.facts
  tasks : ∀ id, .task id ∈ f.agenda.next.present → .task id ∈ f'.agenda.next.present

/-- **A flow advances** if it grows, and if without a new fact nothing is queued that was not queued
before. -/
structure Flow.Advances (f f' : Flow φ τ) : Prop extends f.Grows f' where
  idle : f'.graph.facts ⊆ f.graph.facts → f'.agenda.next.present ⊆ f.agenda.next.present

namespace Flow

variable {sieve : φ → TokenSet τ → TokenSet τ} {f f' f'' : Flow φ τ} {g : Graph φ τ}

theorem Grows.trans (h : f.Grows f') (h' : f'.Grows f'') : f.Grows f'' where
  facts _ hx := h'.facts (h.facts hx)
  tasks id hid := h'.tasks id (h.tasks id hid)

theorem Grows.link (h : f.Grows f') {u v : NodeId} (hv : v ∈ f.graph.successors u) :
    v ∈ f'.graph.successors u :=
  h.facts (a := .link u v) hv

theorem Advances.refl (f : Flow φ τ) : f.Advances f :=
  ⟨⟨fun _ h => h, fun _ h => h⟩, fun _ _ h => h⟩

theorem Advances.trans (h : f.Advances f') (h' : f'.Advances f'') : f.Advances f'' where
  toGrows := h.toGrows.trans h'.toGrows
  idle hsub _ hi :=
    h.idle (fun _ hx => hsub (h'.facts hx)) (h'.idle (fun _ hx => h.facts (hsub hx)) hi)

/-- A step that leaves the queue alone. -/
theorem Advances.of_queue (hfacts : f.graph.facts ⊆ f'.graph.facts)
    (hnext : f'.agenda.next = f.agenda.next) : f.Advances f' := by
  refine ⟨⟨hfacts, fun id hid => ?_⟩, fun _ item hi => ?_⟩
  · rw [hnext]
    exact hid
  · rw [hnext] at hi
    exact hi

/-- A step that brings a new fact may queue what it likes. -/
theorem Grows.advances {x : Fact τ} (h : f.Grows f') (hnew : x ∈ f'.graph.facts)
    (hold : x ∉ f.graph.facts) : f.Advances f' :=
  ⟨h, fun hsub => absurd (hsub hnew) hold⟩

theorem facts_subset {g g' : Graph φ τ} (hcontains : ∀ n, g.contains n → g'.contains n)
    (hsucc : ∀ u v, v ∈ g.successors u → v ∈ g'.successors u)
    (htokens : ∀ n t, t ∈ g.tokens n → t ∈ g'.tokens n)
    (hrep : ∀ n m, g.contains n → g.contains m → g.representative n = g.representative m →
      g'.representative n = g'.representative m) : g.facts ⊆ g'.facts := by
  intro x hx
  cases x with
  | node n => exact hcontains n hx
  | link u v => exact hsucc u v hx
  | token n t => exact htokens n t hx
  | together n m => exact ⟨hcontains n hx.1, hcontains m hx.2.1, hrep n m hx.1 hx.2.1 hx.2.2⟩

theorem advances_addNode (label : Option Label) : f.Advances (f.addNode label).2 := by
  refine .of_queue (facts_subset (fun n hn => ?_) (fun u v hv => ?_) (fun n t ht => ?_)
    fun n m hn hm e => ?_) rfl
  · exact Graph.contains_addNode.mpr (.inl hn)
  · show v ∈ (f.graph.addNode label).2.successors u
    rw [Graph.successors_addNode]
    exact hv
  · show t ∈ (f.graph.addNode label).2.tokens n
    rw [Graph.tokens_addNode]
    exact ht
  · show (f.graph.addNode label).2.representative n = (f.graph.addNode label).2.representative m
    rw [Graph.representative_addNode, Graph.representative_addNode]
    exact e

/-- Graphs that read the same have the same facts. -/
theorem facts_congr {g g' : Graph φ τ} (hcontains : ∀ n, g'.contains n = g.contains n)
    (hsucc : ∀ n, g'.successors n = g.successors n) (hstored : ∀ n, g'.stored n = g.stored n)
    (hrep : ∀ n, g'.representative n = g.representative n) : g'.facts = g.facts := by
  have htokens : ∀ n, g'.tokens n = g.tokens n := fun n => by
    unfold Graph.tokens
    rw [hrep, hstored]
  ext x
  unfold Graph.facts Graph.Holds
  cases x <;> simp only [Set.mem_ofPred_eq, hcontains, hsucc, htokens, hrep]

theorem advances_setFilter {n : NodeId} {filter : φ} (h : f.setFilter n filter = .ok f') :
    f.Advances f' := by
  obtain ⟨_, rfl⟩ := setFilter_eq_ok h
  have hfacts : (f.graph.modify n fun v => { v with filter := some filter }).facts =
      f.graph.facts := facts_congr (fun _ => Graph.contains_modify)
    (fun _ => Graph.successors_modify fun _ => rfl) (fun _ => Graph.stored_modify fun _ => rfl)
    (fun _ => Graph.representative_modify fun _ => rfl)
  exact .of_queue (fun x hx => hfacts.symm ▸ hx) rfl

theorem advances_deliver {n : NodeId} {tokens : TokenSet τ} (hg : f.graph.WellFormed)
    (hs : f.graph.Screened sieve) (hn : f.graph.contains n) :
    f.Advances (f.deliver sieve n tokens).2 := by
  by_cases hgain : (f.gain sieve n tokens).isEmpty
  · -- nothing is new to the node, so nothing changes
    have hsame : (f.deliver sieve n tokens).2 = f := by
      unfold deliver
      dsimp only
      rw [if_pos hgain]
    rw [hsame]
    exact .refl f
  · rw [SortedSet.isEmpty_eq_true] at hgain
    obtain ⟨t, ht⟩ := Classical.not_forall.mp hgain
    have ht := Classical.not_not.mp ht
    refine Grows.advances (x := .token n t) ⟨facts_subset (fun m hm => ?_) (fun u v hv => ?_)
      (fun m t' ht' => ?_) fun m k _ _ e => ?_, fun id hid => ?_⟩ ?_ ?_
    · rw [contains_deliver]
      exact hm
    · rw [successors_deliver]
      exact hv
    · exact (mem_tokens_deliver hg.grouped hn).mpr (.inl ht')
    · rw [representative_deliver, representative_deliver]
      exact e
    · exact growing_deliver (Agenda.lasting_task id).toGrowing hid
    · exact (mem_tokens_deliver hg.grouped hn).mpr (.inr ⟨rfl, ht⟩)
    · exact ((mem_gain hg hs).mp ht).2.1

theorem advances_execute {item : WorkItem} (hg : f.graph.WellFormed)
    (hs : f.graph.Screened sieve)
    (hsend : ∀ n tokens, item = .send n → f.agenda.delta? item = some tokens →
      f.graph.contains n) : f.Advances (f.execute sieve item).2 := by
  have hcollect : f.Advances { f with agenda := (f.agenda.collect item).2 } :=
    .of_queue (fun _ hx => hx) rfl
  refine execute_cases item (fun _ => hcollect) fun n tokens hitem hd => ?_
  exact hcollect.trans (advances_deliver hg hs (hsend n tokens hitem hd))

theorem advances_link {u v : NodeId} (hg : f.graph.WellFormed) (hu : f.graph.contains u) :
    f.Advances (f.link sieve u v).2 := by
  by_cases hl : f.graph.linked u v
  · have hsame : (f.link sieve u v).2 = f := by
      unfold link
      rw [if_pos hl]
    rw [hsame]
    exact .refl f
  · refine Grows.advances (x := .link u v) ⟨facts_subset (fun m hm => ?_) (fun a b hb => ?_)
      (fun m t ht => ?_) fun m k _ _ e => ?_, fun id hid => ?_⟩ ?_ ?_
    · rw [contains_link]
      exact hm
    · exact (mem_successors_link hg hu).mpr (.inl hb)
    · rw [tokens_link]
      exact ht
    · rw [representative_link, representative_link]
      exact e
    · exact growing_link (Agenda.lasting_task id).toGrowing hid
    · exact (mem_successors_link hg hu).mpr (.inr ⟨rfl, rfl⟩)
    · exact fun hv => hl (hg.linked_iff.mpr hv)

/-- To fuse components makes different components one. -/
theorem advances_fuse {cycle : List NodeId} (h : Fusable f.graph cycle) :
    f.Advances (f.fuse cycle) := by
  match cycle, h with
  | [], _ => exact .refl f
  | [_], _ => exact .refl f
  | r :: r' :: rest, h =>
    have hr : r ∈ r :: r' :: rest := List.mem_cons_self
    have hr' : r' ∈ r :: r' :: rest := List.mem_cons_of_mem _ List.mem_cons_self
    have hne : r ≠ r' := fun e => (List.nodup_cons.mp h.nodup).1 (e ▸ List.mem_cons_self)
    refine Grows.advances (x := .together r r') ⟨facts_subset (fun m hm => ?_)
      (fun a b hb => ?_) (fun m t ht => ?_) fun m k _ _ e => ?_, fun id hid => ?_⟩ ⟨?_, ?_, ?_⟩
      fun hold => ?_
    · rw [contains_fuse]
      exact hm
    · rw [successors_fuse]
      exact hb
    · exact h.subset_tokens_fuse ht
    · rw [representative_fuse h, representative_fuse h, e]
    · exact lasting_fuse (Agenda.lasting_task id) hid
    · rw [contains_fuse]
      exact h.contains r hr
    · rw [contains_fuse]
      exact h.contains r' hr'
    · rw [representative_fuse h, representative_fuse h, h.rep hr, h.rep hr', if_pos hr, if_pos hr']
    · have e := hold.2.2
      rw [h.rep hr, h.rep hr'] at e
      exact hne e

theorem advances_condense (hg : f.graph.WellFormed) (roots : List NodeId) :
    f.Advances (f.condense roots).2 := by
  refine condense_induction (P := f.Advances) hg.grouped roots (fun g hu => ?_) fun f' c hc h => ?_
  · have hfacts : g.facts = f.graph.facts := facts_congr
      (fun n => Graph.contains_of_unmarked hu) (fun n => Graph.successors_of_unmarked hu)
      (fun n => Graph.stored_of_unmarked hu) (fun n => Graph.representative_of_unmarked hu)
    exact .of_queue (fun x hx => hfacts.symm ▸ hx) rfl
  · exact h.trans (advances_fuse hc)

end Flow

end ValueFlow
