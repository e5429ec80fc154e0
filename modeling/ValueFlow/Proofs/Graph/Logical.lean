import Mathlib.Logic.Relation
import ValueFlow.Proofs.Graph.WellFormed

/-!
# The graph of components

The fusable components of a graph form a graph of their own, with `logicalSuccessors` as its
edges. Here is what it means to reach one component from another (`Graph.Reaches`), to lie on a
common cycle (`Graph.Mutual`) and to be reached from a list of roots (`Graph.Reached`). Nothing of
this depends on the marks that a search leaves (`Graph.unmarked`).
-/

namespace ValueFlow.Graph

open Relation

variable {φ τ : Type} [Ordered τ] {g g' : Graph φ τ} {a b c n m r : NodeId}

/-! ## 1. Edges -/

/-- Collecting elements one by one keeps exactly the elements. -/
theorem mem_foldl_distinct {α : Type} [BEq α] [LawfulBEq α] {xs acc : List α} {x : α} :
    x ∈ xs.foldl (fun seen t => if seen.contains t then seen else seen ++ [t]) acc ↔
      x ∈ acc ∨ x ∈ xs := by
  induction xs generalizing acc with
  | nil => simp
  | cons y ys ih =>
    rw [List.foldl_cons, ih, List.mem_cons]
    by_cases hy : acc.contains y = true
    · rw [if_pos hy]
      rw [List.contains_iff_mem] at hy
      refine ⟨fun h => h.imp id .inr, ?_⟩
      rintro (h | rfl | h)
      · exact .inl h
      · exact .inl hy
      · exact .inr h
    · rw [if_neg hy, List.mem_append, List.mem_singleton, or_assoc]

theorem isFusable_iff : g.isFusable n ↔ g.representative n = n ∧ g.filter? n = none := by
  simp [isFusable]

/-- **An edge between components** is a link from a node of the one to a node of the other. -/
theorem mem_logicalSuccessors : c ∈ g.logicalSuccessors r ↔
    ∃ m ∈ g.component r, ∃ s ∈ g.successors m, g.contains s ∧ g.representative s = c ∧
      c ≠ r ∧ g.isFusable c := by
  unfold logicalSuccessors
  rw [mem_foldl_distinct]
  simp only [List.not_mem_nil, false_or, List.mem_flatMap, List.mem_filterMap]
  constructor
  · rintro ⟨m, hm, s, hs, h⟩
    split at h
    · rename_i hc
      simp only [Bool.and_eq_true, bne_iff_ne] at hc
      cases h
      exact ⟨m, hm, s, hs, hc.1.1, rfl, hc.1.2, hc.2⟩
    · cases h
  · rintro ⟨m, hm, s, hs, h₁, rfl, h₂, h₃⟩
    refine ⟨m, hm, s, hs, ?_⟩
    rw [if_pos]
    simp only [Bool.and_eq_true, bne_iff_ne]
    exact ⟨⟨h₁, h₂⟩, h₃⟩

/-- The component `b` can be reached from `a`. -/
def Reaches (g : Graph φ τ) : NodeId → NodeId → Prop :=
  ReflTransGen fun a b => b ∈ g.logicalSuccessors a

/-- Two components lie on a common cycle, or are the same. -/
def Mutual (g : Graph φ τ) (a b : NodeId) : Prop := g.Reaches a b ∧ g.Reaches b a

/-- **The components that are reached from the roots**: from those that have a node, through its
representative, provided that no filter is in the way. -/
def Reached (g : Graph φ τ) (roots : List NodeId) (n : NodeId) : Prop :=
  ∃ root ∈ roots, g.contains root ∧ g.isFusable (g.representative root) ∧
    g.Reaches (g.representative root) n

theorem Mutual.refl (a : NodeId) : g.Mutual a a := ⟨.refl, .refl⟩

theorem Mutual.symm (h : g.Mutual a b) : g.Mutual b a := ⟨h.2, h.1⟩

theorem Mutual.trans (h : g.Mutual a b) (h' : g.Mutual b c) : g.Mutual a c :=
  ⟨ReflTransGen.trans h.1 h'.1, ReflTransGen.trans h'.2 h.2⟩

theorem contains_of_mem_logicalSuccessors (hg : g.Grouped) (h : c ∈ g.logicalSuccessors r) :
    g.contains c := by
  obtain ⟨m, _, s, _, hs, rfl, _⟩ := mem_logicalSuccessors.mp h
  exact hg.contains_rep hs

theorem isFusable_of_mem_logicalSuccessors (h : c ∈ g.logicalSuccessors r) : g.isFusable c := by
  obtain ⟨m, _, s, _, _, _, _, hc⟩ := mem_logicalSuccessors.mp h
  exact hc

theorem Reached.step {roots : List NodeId} (h : g.Reached roots a)
    (hb : b ∈ g.logicalSuccessors a) : g.Reached roots b := by
  obtain ⟨root, hr, hc, hf, ha⟩ := h
  exact ⟨root, hr, hc, hf, ReflTransGen.tail ha hb⟩

theorem Reached.contains (hg : g.Grouped) {roots : List NodeId} (h : g.Reached roots n) :
    g.contains n := by
  obtain ⟨root, _, hc, _, h⟩ := h
  rcases ReflTransGen.cases_tail h with rfl | ⟨b, _, hb⟩
  · exact hg.contains_rep hc
  · exact contains_of_mem_logicalSuccessors hg hb

theorem Reached.isFusable {roots : List NodeId} (h : g.Reached roots n) : g.isFusable n := by
  obtain ⟨root, _, _, hf, h⟩ := h
  rcases ReflTransGen.cases_tail h with rfl | ⟨b, _, hb⟩
  · exact hf
  · exact isFusable_of_mem_logicalSuccessors hb

theorem Reached.contains_isFusable (hg : g.WellFormed) {roots : List NodeId}
    (h : g.Reached roots n) : g.contains n ∧ g.isFusable n :=
  ⟨h.contains hg.grouped, h.isFusable⟩

/-! ## 2. Marks do not matter -/

/-- The graph without marks. -/
def unmarked (g : Graph φ τ) : Graph φ τ := ⟨g.nodes.map fun v => { v with mark := {} }⟩

theorem node?_unmarked : g.unmarked.node? n = (g.node? n).map fun v => { v with mark := {} } := by
  simp [unmarked, node?]

theorem unmarked_unmarked : g.unmarked.unmarked = g.unmarked := by
  simp [unmarked]

theorem unmarked_modify_mark {h : Mark → Mark} :
    (g.modify n fun v => { v with mark := h v.mark }).unmarked = g.unmarked := by
  unfold unmarked modify
  congr 1
  refine Array.ext_getElem? fun i => ?_
  simp only [Array.getElem?_map, Array.getElem?_modify]
  by_cases hi : n.index = i
  · rw [if_pos hi]
    cases g.nodes[i]? <;> rfl
  · rw [if_neg hi]

/-- **Readings that do not look at marks agree** on graphs that differ in marks only. -/
theorem readAt_of_unmarked {β : Type} {s : Node φ τ → β} {d : β} (h : g'.unmarked = g.unmarked)
    (hs : ∀ v, s { v with mark := {} } = s v) : g'.readAt n s d = g.readAt n s d := by
  have key : ∀ g : Graph φ τ, g.unmarked.readAt n s d = g.readAt n s d := fun g => by
    unfold readAt
    rw [node?_unmarked]
    cases g.node? n with
    | none => rfl
    | some v => exact hs v
  rw [← key g', h, key g]

section Unmarked

variable (h : g'.unmarked = g.unmarked)
include h

theorem size_of_unmarked : g'.size = g.size := by
  have := congrArg (fun g : Graph φ τ => g.nodes.size) h
  simpa [unmarked, size] using this

theorem contains_of_unmarked : g'.contains n = g.contains n := by
  have := size_of_unmarked h
  unfold size at this
  unfold contains
  rw [this]

theorem representative_of_unmarked : g'.representative n = g.representative n := by
  rw [representative_eq, representative_eq, readAt_of_unmarked h fun _ => rfl]

theorem stored_of_unmarked : g'.stored n = g.stored n := by
  rw [stored_eq, stored_eq, readAt_of_unmarked h fun _ => rfl]

theorem tokens_of_unmarked : g'.tokens n = g.tokens n := by
  unfold tokens
  rw [representative_of_unmarked h, stored_of_unmarked h]

theorem successors_of_unmarked : g'.successors n = g.successors n := by
  rw [successors_eq, successors_eq, readAt_of_unmarked h fun _ => rfl]

theorem linked_of_unmarked : g'.linked n m = g.linked n m := by
  rw [linked_eq, linked_eq, readAt_of_unmarked h fun _ => rfl]

theorem listeners_of_unmarked : g'.listeners n = g.listeners n := by
  rw [listeners_eq, listeners_eq, readAt_of_unmarked h fun _ => rfl]

theorem filter?_of_unmarked : g'.filter? n = g.filter? n := by
  rw [filter?_eq, filter?_eq, readAt_of_unmarked h fun _ => rfl]

theorem fused_of_unmarked : g'.fused n = g.fused n := by
  rw [fused_eq, fused_eq, readAt_of_unmarked h fun _ => rfl]

theorem members_of_unmarked : g'.members n = g.members n := readAt_of_unmarked h fun _ => rfl

theorem component_of_unmarked : g'.component n = g.component n := by
  rw [component_eq_members, component_eq_members, members_of_unmarked h]

theorem isFusable_of_unmarked : g'.isFusable n = g.isFusable n := by
  unfold isFusable
  rw [representative_of_unmarked h, filter?_of_unmarked h]

theorem logicalSuccessors_of_unmarked : g'.logicalSuccessors n = g.logicalSuccessors n := by
  unfold logicalSuccessors
  simp only [component_of_unmarked h, successors_of_unmarked h, contains_of_unmarked h,
    representative_of_unmarked h, isFusable_of_unmarked h]

theorem Grouped.of_unmarked (hg : g.Grouped) : g'.Grouped where
  contains_rep := by
    simp only [contains_of_unmarked h, representative_of_unmarked h]
    exact hg.contains_rep
  rep_rep := by
    simp only [representative_of_unmarked h]
    exact hg.rep_rep
  mem_component := by
    simp only [contains_of_unmarked h, representative_of_unmarked h, component_of_unmarked h]
    exact hg.mem_component

theorem WellFormed.of_unmarked (hg : g.WellFormed) : g'.WellFormed := by
  refine hg.transfer ⟨fun _ => contains_of_unmarked h, fun _ => representative_of_unmarked h,
    fun _ => members_of_unmarked h, fun _ => fused_of_unmarked h⟩ (fun k hk => ?_)
    (fun k hk => ?_) (fun k m hm => ?_) (fun k => ?_) fun k m => ?_
  · rw [filter?_of_unmarked h]
    exact hg.unfiltered hk
  · rw [stored_of_unmarked h]
    exact hg.stored_of_ne hk
  · rw [successors_of_unmarked h] at hm
    exact hg.contains_successor hm
  · rw [successors_of_unmarked h]
    exact hg.nodup_successors
  · rw [linked_of_unmarked h, successors_of_unmarked h]
    exact hg.linked_iff

end Unmarked

end ValueFlow.Graph
