import ValueFlow.Graph.Basic

/-!
# Reading a graph that was written to

Everything that is read from a graph is read at single nodes (`readAt`), and everything that is
written changes one node (`modify`) or adds one (`addNode`). A write to one field leaves the
readings of the others alone: `readAt_modify` says it once, and each reading is an instance.
-/

namespace ValueFlow

theorem NodeId.index_inj {a b : NodeId} : a.index = b.index ↔ a = b := by
  cases a; cases b; simp

namespace Graph

variable {φ τ : Type} [Ordered τ] {g : Graph φ τ} {n m : NodeId}

/-! ## 1. Nodes -/

theorem node?_eq_none : g.node? n = none ↔ ¬ g.contains n := by
  simp [node?, contains]

theorem exists_node? (h : g.contains n) : ∃ v, g.node? n = some v := by
  cases hv : g.node? n with
  | none => exact absurd h (node?_eq_none.mp hv)
  | some v => exact ⟨v, rfl⟩

theorem contains_iff : g.contains n = true ↔ n.index < g.size := by
  simp [contains, size]

theorem mem_ids : n ∈ g.ids ↔ g.contains n := by
  simp only [ids, List.mem_map, List.mem_range, contains, decide_eq_true_eq]
  refine ⟨?_, fun h => ⟨n.index, h, rfl⟩⟩
  rintro ⟨i, hi, rfl⟩
  exact hi

/-- What a node shows of itself, and `d` where there is no node. -/
def readAt {β : Type} (g : Graph φ τ) (n : NodeId) (field : Node φ τ → β) (d : β) : β :=
  (g.node? n).elim d field

theorem readAt_of_not_contains {β : Type} {s : Node φ τ → β} {d : β} (h : ¬ g.contains n) :
    g.readAt n s d = d := by
  unfold readAt
  rw [node?_eq_none.mpr h]
  rfl

/-! ## 2. The readings -/

theorem representative_eq : g.representative n = g.readAt n Node.representative n := by
  unfold representative readAt
  cases g.node? n <;> rfl

theorem stored_eq : g.stored n = g.readAt n Node.tokens ∅ := by
  unfold stored readAt
  cases g.node? n <;> rfl

theorem successors_eq : g.successors n = g.readAt n (fun v => v.links.order) [] := by
  unfold successors readAt
  cases g.node? n <;> rfl

theorem linked_eq : g.linked n m = g.readAt n (fun v => v.links.contains m) false := by
  unfold linked readAt
  cases g.node? n <;> rfl

theorem listeners_eq : g.listeners n = g.readAt n Node.listeners [] := by
  unfold listeners readAt
  cases g.node? n <;> rfl

theorem filter?_eq : g.filter? n = g.readAt n Node.filter none := by
  unfold filter? readAt
  cases g.node? n <;> rfl

theorem mark_eq : g.mark n = g.readAt n Node.mark {} := by
  unfold mark readAt
  cases g.node? n <;> rfl

theorem fused_eq : g.fused n = g.readAt n Node.fused false := by
  unfold fused readAt
  cases g.node? n <;> rfl

theorem component_eq : g.component n =
    g.readAt n (fun v => if v.members.isEmpty then [n] else v.members) [n] := by
  unfold component readAt
  cases g.node? n <;> rfl

theorem representative_of_not_contains (h : ¬ g.contains n) : g.representative n = n := by
  rw [representative_eq, readAt_of_not_contains h]

theorem stored_of_not_contains (h : ¬ g.contains n) : g.stored n = ∅ := by
  rw [stored_eq, readAt_of_not_contains h]

theorem contains_of_mem_stored {t : τ} (h : t ∈ g.stored n) : g.contains n := by
  refine Classical.byContradiction fun hc => ?_
  rw [stored_of_not_contains hc] at h
  exact SortedSet.not_mem_empty t h

theorem contains_of_mem_successors (h : m ∈ g.successors n) : g.contains n := by
  refine Classical.byContradiction fun hc => ?_
  rw [successors_eq, readAt_of_not_contains hc] at h
  exact List.not_mem_nil h

theorem contains_of_mem_listeners {l : ListenerId} (h : l ∈ g.listeners n) : g.contains n := by
  refine Classical.byContradiction fun hc => ?_
  rw [listeners_eq, readAt_of_not_contains hc] at h
  exact List.not_mem_nil h

/-! ## 3. Writing to a node -/

section Modify

variable {f : Node φ τ → Node φ τ}

theorem node?_modify : (g.modify n f).node? m = if n = m then (g.node? m).map f else g.node? m := by
  unfold modify node?
  rw [Array.getElem?_modify]
  simp only [NodeId.index_inj]

@[simp] theorem size_modify : (g.modify n f).size = g.size := by
  simp [modify, size]

@[simp] theorem contains_modify : (g.modify n f).contains m = g.contains m := by
  simp [modify, contains]

/-- **A write is not seen by a reading that it keeps.** -/
theorem readAt_modify {β : Type} {s : Node φ τ → β} {d : β} (hf : ∀ v, s (f v) = s v) :
    (g.modify n f).readAt m s d = g.readAt m s d := by
  unfold readAt
  rw [node?_modify]
  by_cases h : n = m
  · rw [if_pos h]
    cases g.node? m with
    | none => rfl
    | some v => exact hf v
  · rw [if_neg h]

theorem readAt_modify_of_ne {β : Type} {s : Node φ τ → β} {d : β} (h : n ≠ m) :
    (g.modify n f).readAt m s d = g.readAt m s d := by
  unfold readAt
  rw [node?_modify, if_neg h]

theorem readAt_modify_self {β : Type} {s : Node φ τ → β} {d : β} (h : g.contains n) :
    (g.modify n f).readAt n s d = g.readAt n (fun v => s (f v)) d := by
  obtain ⟨v, hv⟩ := exists_node? h
  unfold readAt
  rw [node?_modify, if_pos rfl, hv]
  rfl

@[simp] theorem representative_modify (hf : ∀ v, (f v).representative = v.representative) :
    (g.modify n f).representative m = g.representative m := by
  rw [representative_eq, representative_eq, readAt_modify hf]

@[simp] theorem stored_modify (hf : ∀ v, (f v).tokens = v.tokens) :
    (g.modify n f).stored m = g.stored m := by
  rw [stored_eq, stored_eq, readAt_modify hf]

@[simp] theorem successors_modify (hf : ∀ v, (f v).links = v.links) :
    (g.modify n f).successors m = g.successors m := by
  rw [successors_eq, successors_eq, readAt_modify fun v => congrArg Links.order (hf v)]

@[simp] theorem linked_modify {k : NodeId} (hf : ∀ v, (f v).links = v.links) :
    (g.modify n f).linked m k = g.linked m k := by
  rw [linked_eq, linked_eq, readAt_modify fun v => congrArg (Links.contains · k) (hf v)]

@[simp] theorem listeners_modify (hf : ∀ v, (f v).listeners = v.listeners) :
    (g.modify n f).listeners m = g.listeners m := by
  rw [listeners_eq, listeners_eq, readAt_modify hf]

@[simp] theorem filter?_modify (hf : ∀ v, (f v).filter = v.filter) :
    (g.modify n f).filter? m = g.filter? m := by
  rw [filter?_eq, filter?_eq, readAt_modify hf]

@[simp] theorem fused_modify (hf : ∀ v, (f v).fused = v.fused) :
    (g.modify n f).fused m = g.fused m := by
  rw [fused_eq, fused_eq, readAt_modify hf]

@[simp] theorem component_modify (hf : ∀ v, (f v).members = v.members) :
    (g.modify n f).component m = g.component m := by
  rw [component_eq, component_eq, readAt_modify fun v => by rw [hf v]]

end Modify

/-! ## 4. Adding a node -/

section AddNode

variable {label : Option Label}

theorem node?_addNode : (g.addNode label).2.node? m =
    if m = ⟨g.size⟩ then some { label, representative := ⟨g.size⟩ } else g.node? m := by
  unfold addNode node?
  rw [Array.getElem?_push]
  simp only [← NodeId.index_inj, size]

theorem size_addNode : (g.addNode label).2.size = g.size + 1 := by
  simp [addNode, size]

theorem contains_addNode :
    (g.addNode label).2.contains m = true ↔ g.contains m = true ∨ m = ⟨g.size⟩ := by
  rw [contains_iff, contains_iff, size_addNode, ← NodeId.index_inj]
  show m.index < g.size + 1 ↔ m.index < g.size ∨ m.index = g.size
  omega

theorem not_contains_size : ¬ g.contains ⟨g.size⟩ := by
  simp [contains, size]

/-- **A new node is read like no node**, as long as the reading shows of a fresh node what it would
show of none. -/
theorem readAt_addNode {β : Type} {s : Node φ τ → β} {d : β}
    (hs : m = ⟨g.size⟩ → s { label, representative := ⟨g.size⟩ } = d) :
    (g.addNode label).2.readAt m s d = g.readAt m s d := by
  by_cases h : m = ⟨g.size⟩
  · have hn : g.node? m = none := node?_eq_none.mpr (h ▸ not_contains_size)
    unfold readAt
    rw [node?_addNode, if_pos h, hn]
    exact hs h
  · unfold readAt
    rw [node?_addNode, if_neg h]

@[simp] theorem representative_addNode :
    (g.addNode label).2.representative m = g.representative m := by
  rw [representative_eq, representative_eq, readAt_addNode fun h => h.symm]

@[simp] theorem stored_addNode : (g.addNode label).2.stored m = g.stored m := by
  rw [stored_eq, stored_eq, readAt_addNode fun _ => rfl]

@[simp] theorem tokens_addNode : (g.addNode label).2.tokens m = g.tokens m := by
  unfold tokens
  rw [representative_addNode, stored_addNode]

@[simp] theorem successors_addNode : (g.addNode label).2.successors m = g.successors m := by
  rw [successors_eq, successors_eq]
  exact readAt_addNode fun _ => rfl

@[simp] theorem linked_addNode {k : NodeId} : (g.addNode label).2.linked m k = g.linked m k := by
  rw [linked_eq, linked_eq]
  exact readAt_addNode fun _ => rfl

@[simp] theorem listeners_addNode : (g.addNode label).2.listeners m = g.listeners m := by
  rw [listeners_eq, listeners_eq, readAt_addNode fun _ => rfl]

@[simp] theorem filter?_addNode : (g.addNode label).2.filter? m = g.filter? m := by
  rw [filter?_eq, filter?_eq, readAt_addNode fun _ => rfl]

@[simp] theorem fused_addNode : (g.addNode label).2.fused m = g.fused m := by
  rw [fused_eq, fused_eq, readAt_addNode fun _ => rfl]

@[simp] theorem component_addNode : (g.addNode label).2.component m = g.component m := by
  rw [component_eq, component_eq]
  exact readAt_addNode fun _ => rfl

end AddNode

end Graph

end ValueFlow
