import ValueFlow.Proofs.Flow.Histories

/-!
# How the nodes of a flow are arranged

Fusing rewrites five fields of many nodes at once, some of which lead components that were fused
before, and all other operations read through what it leaves behind. Whatever operations came first,
with whatever filters, the nodes fit together (`Reachable.arranged`):

* a representative leads itself, and its members are exactly the nodes that name it, the smallest of
  them being itself;
* no other node stores tokens or members;
* a node is marked as fused if and only if its component has several nodes, and then it has no
  filter;
* the links of a node are its successors, each once.

Links must lead to nodes that exist. Nothing is asked of filters: they may let through what they
like, and something else at every operation.
-/

namespace ValueFlow.Flow

open ValueFlow.Graph

variable {φ τ : Type} [Ordered τ] {f f' : Flow φ τ} {op : Operation φ τ}
  {sieve : φ → TokenSet τ → TokenSet τ}

/-- The operation makes no link to a missing node. -/
def Anchored (f : Flow φ τ) : Operation φ τ → Bool
  | .link _ target => f.graph.contains target
  | _ => true

/-! ## 1. Well-formed graphs -/

theorem wellFormed_execute (hg : f.graph.WellFormed) (item : WorkItem) :
    (f.execute sieve item).2.graph.WellFormed :=
  execute_cases (P := fun f => f.graph.WellFormed) item (fun _ => hg)
    fun _ _ _ _ => wellFormed_deliver (f := ⟨f.graph, (f.agenda.collect item).2⟩) hg

/-- **Every operation keeps a graph well-formed**, whatever the filters let through. -/
theorem Does.wellFormed (h : Does sieve f op f') (hop : f.Anchored op) (hg : f.graph.WellFormed) :
    f'.graph.WellFormed := by
  cases h with
  | addNode label => exact hg.addNode label
  | link target hsource => exact wellFormed_link hg hsource hop
  | deliver => exact wellFormed_deliver hg
  | setFilter _ hok =>
    obtain ⟨hfused, rfl⟩ := setFilter_eq_ok hok
    exact hg.setFilter hfused
  | subscribe =>
    exact hg.modify _ (fun _ => rfl) (fun _ => rfl) (fun _ => rfl) (fun _ => rfl) (fun _ => rfl)
      fun _ => rfl
  | condense roots => exact wellFormed_condense hg roots
  | execute item => exact wellFormed_execute hg item
  | clear => exact wellFormed_empty
  | offer | refuse | schedule | giveBack | beginRound | putBack => exact hg

theorem Reachable.wellFormed {order : BagOrder}
    (h : Reachable (fun _ f op => f.Anchored op) order f) : f.graph.WellFormed := by
  induction h with
  | empty => exact wellFormed_empty
  | step op _ hop hdone ih => exact (does_of_perform? hdone).wellFormed hop ih

end ValueFlow.Flow

/-! ## 2. Components -/

namespace ValueFlow.Graph

variable {φ τ : Type} [Ordered τ] {g : Graph φ τ} {n r : NodeId}

/-- Recorded members are the whole component. -/
theorem component_of_members (hne : g.members r ≠ []) : g.component r = g.members r := by
  rw [component_eq_members, if_neg (by simpa using hne)]

namespace WellFormed

variable (hg : g.WellFormed)
include hg

/-- A representative without recorded members is alone. -/
theorem alone_of_members_nil (hr : g.contains r) (hrr : g.representative r = r)
    (hnil : g.members r = []) (hn : g.contains n) (hnr : g.representative n = r) : n = r := by
  have hmem : n ∈ g.component r := (hg.mem_component hr hrr).mpr ⟨hn, hnr⟩
  rw [component_eq_members, hnil] at hmem
  exact List.mem_singleton.mp hmem

/-- There are never as few as one. -/
theorem two_le_length_members (hne : g.members r ≠ []) : 2 ≤ (g.members r).length := by
  have hpos : 0 < (g.members r).length := List.length_pos_of_ne_nil hne
  have hone : (g.members r).length ≠ 1 := hg.length_members
  omega

/-- A node is fused if and only if its component has several nodes. -/
theorem fused_iff_two_le (hn : g.contains n) :
    g.fused n ↔ 2 ≤ (g.component (g.representative n)).length := by
  have hr := hg.contains_rep hn
  have hmem : ∀ m, m ∈ g.component (g.representative n) ↔
      g.contains m ∧ g.representative m = g.representative n :=
    fun _ => hg.mem_component hr hg.rep_rep
  have hself := (hmem n).mpr ⟨hn, rfl⟩
  have hnodup := hg.nodup_component hr hg.rep_rep
  rw [hg.fused_iff hn]
  generalize g.component (g.representative n) = component at hmem hself hnodup
  match component with
  | [] => exact absurd hself List.not_mem_nil
  | [a] =>
    refine ⟨fun ⟨m, hm, hne, hmn⟩ => absurd ?_ hne, fun hlength => absurd hlength (by simp)⟩
    exact (List.mem_singleton.mp ((hmem m).mpr ⟨hm, hmn⟩)).trans (List.mem_singleton.mp hself).symm
  | a :: b :: rest =>
    refine ⟨fun _ => by simp, fun _ => ?_⟩
    have hab : a ≠ b := by
      rintro rfl
      simp at hnodup
    -- one of the first two is not the node itself
    by_cases han : a = n
    · have hb := (hmem b).mp (by simp)
      exact ⟨b, hb.1, fun e => hab (han.trans e.symm), hb.2⟩
    · have ha := (hmem a).mp (by simp)
      exact ⟨a, ha.1, han, ha.2⟩

end WellFormed

end ValueFlow.Graph

/-! ## 3. All that operations lead to -/

namespace ValueFlow.Flow

open ValueFlow.Graph

variable {φ τ : Type} [Ordered τ] {f : Flow φ τ} {order : BagOrder}

/-- **The nodes of a flow fit together** whatever operations led to it. Every node has a
representative, which is its own. A representative has no recorded members and is alone, or its
members are exactly the nodes that name it, at least two and each once, and it is the smallest of
them. All other nodes store neither tokens nor members. The fused nodes are those whose component
has several nodes, and they have no filter. The successors of a node are listed once each, and are
those that its index knows. -/
theorem Reachable.arranged (h : Reachable (fun _ f op => f.Anchored op) order f) :
    (∀ v, f.graph.contains v → f.graph.contains (f.graph.representative v) ∧
      f.graph.representative (f.graph.representative v) = f.graph.representative v) ∧
    (∀ r, f.graph.contains r → f.graph.representative r = r →
      (f.graph.members r = [] ∧
        ∀ v, f.graph.contains v → f.graph.representative v = r → v = r) ∨
      (2 ≤ (f.graph.members r).length ∧ (f.graph.members r).Nodup ∧
        (∀ v, v ∈ f.graph.members r ↔ f.graph.contains v ∧ f.graph.representative v = r) ∧
        r ∈ f.graph.members r ∧ ∀ v ∈ f.graph.members r, r.index ≤ v.index)) ∧
    (∀ v, f.graph.contains v → f.graph.representative v ≠ v →
      f.graph.stored v = ∅ ∧ f.graph.members v = []) ∧
    (∀ v, f.graph.contains v →
      (f.graph.fused v ↔ 2 ≤ (f.graph.component (f.graph.representative v)).length)) ∧
    (∀ v, f.graph.fused v → f.graph.filter? v = none) ∧
    ∀ v, (f.graph.successors v).Nodup ∧ ∀ u, u ∈ f.graph.successors v ↔ f.graph.linked v u := by
  have hg := h.wellFormed
  refine ⟨fun v hv => ⟨hg.contains_rep hv, hg.rep_rep⟩, fun r hr hrr => ?_,
    fun v _ hv => ⟨hg.stored_of_ne hv, hg.members_of_ne hv⟩, fun v hv => hg.fused_iff_two_le hv,
    fun v hv => hg.unfiltered hv, fun v => ⟨hg.nodup_successors, fun u => hg.linked_iff.symm⟩⟩
  by_cases hnil : f.graph.members r = []
  · exact .inl ⟨hnil, fun v hv hvr => hg.alone_of_members_nil hr hrr hnil hv hvr⟩
  · have hmem : ∀ v, v ∈ f.graph.members r ↔
        f.graph.contains v ∧ f.graph.representative v = r := fun v =>
      component_of_members hnil ▸ hg.mem_component hr hrr
    have hnodup : (f.graph.members r).Nodup :=
      component_of_members hnil ▸ hg.nodup_component hr hrr
    refine .inr ⟨hg.two_le_length_members hnil, hnodup, hmem, (hmem r).mpr ⟨hr, hrr⟩,
      fun v hv => ?_⟩
    have hle : (f.graph.representative v).index ≤ v.index := hg.rep_le
    rwa [((hmem v).mp hv).2] at hle

/-- Do what is asked, unless it makes a link to a missing node. -/
def performAnchored? (sieve : φ → TokenSet τ → TokenSet τ) (f : Flow φ τ) (op : Operation φ τ) :
    Option (Flow φ τ) :=
  if f.Anchored op then f.perform? sieve op else none

theorem Reachable.foldlM_anchored {f' : Flow φ τ} {sieve : φ → TokenSet τ → TokenSet τ}
    {ops : List (Operation φ τ)} (h : Reachable (fun _ f op => f.Anchored op) order f)
    (hops : ops.foldlM (performAnchored? sieve) f = some f') :
    Reachable (fun _ f op => f.Anchored op) order f' := by
  induction ops generalizing f with
  | nil =>
    cases hops
    exact h
  | cons op ops ih =>
    obtain ⟨f₁, hf₁, hrest⟩ := Option.bind_eq_some_iff.mp hops
    unfold performAnchored? at hf₁
    split at hf₁
    · rename_i hop
      exact ih (.step op h hop hf₁) hrest
    · cases hf₁

/-- Two nodes in a circle are fused, and a third one joins them later. The fourth lies on a circle
with them, too, but it has a filter. -/
def grownSteps : List (Operation Unit Nat) :=
  [.addNode none, .addNode none, .addNode none, .addNode none, .link ⟨1⟩ ⟨2⟩, .link ⟨2⟩ ⟨1⟩,
    .deliver ⟨2⟩ (.singleton 5), .condense [⟨1⟩], .setFilter ⟨3⟩ (), .link ⟨2⟩ ⟨0⟩, .link ⟨0⟩ ⟨1⟩,
    .link ⟨0⟩ ⟨3⟩, .link ⟨3⟩ ⟨0⟩, .condense [⟨0⟩]]

/-- The flow after `grownSteps`. -/
def grownFlow : Flow Unit Nat :=
  (grownSteps.foldlM (performAnchored? fun _ s => s) (.empty .fifo)).getD (.empty .fifo)

theorem reachable_grownFlow : Reachable (fun _ f op => f.Anchored op) .fifo grownFlow := by
  have hsome : (grownSteps.foldlM (performAnchored? fun _ s => s)
      (.empty .fifo : Flow Unit Nat)).isSome := by decide +kernel
  obtain ⟨f, hf⟩ := Option.isSome_iff_exists.mp hsome
  have hgrown : grownFlow = f := by
    unfold grownFlow
    rw [hf]
    rfl
  exact hgrown ▸ Reachable.empty.foldlM_anchored hf

/-- The first node has taken over the two that were fused before. -/
theorem arranged_grownFlow : grownFlow.graph.representative ⟨2⟩ = ⟨0⟩ ∧
    (∀ v, v ∈ grownFlow.graph.members ⟨0⟩ ↔
      grownFlow.graph.contains v ∧ grownFlow.graph.representative v = ⟨0⟩) ∧
    grownFlow.graph.stored ⟨1⟩ = ∅ ∧ grownFlow.graph.members ⟨1⟩ = [] ∧
    grownFlow.graph.fused ⟨2⟩ ∧ ¬ grownFlow.graph.fused ⟨3⟩ := by
  obtain ⟨-, hmembers, hother, hfused, -, -⟩ := reachable_grownFlow.arranged
  have hzero : grownFlow.graph.members ⟨0⟩ ≠ [] := by decide +kernel
  obtain ⟨hnil, -⟩ | ⟨-, -, hmem, -, -⟩ := hmembers ⟨0⟩ (by decide +kernel) (by decide +kernel)
  · exact absurd hnil hzero
  · obtain ⟨hstored, hnone⟩ := hother ⟨1⟩ (by decide +kernel) (by decide +kernel)
    refine ⟨by decide +kernel, hmem, hstored, hnone, (hfused ⟨2⟩ (by decide +kernel)).mpr ?_,
      fun h => absurd ((hfused ⟨3⟩ (by decide +kernel)).mp h) ?_⟩ <;> decide +kernel

end ValueFlow.Flow
