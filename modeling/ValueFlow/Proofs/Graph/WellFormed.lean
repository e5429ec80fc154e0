import ValueFlow.Proofs.Graph.Reading

/-!
# Well-formed graphs

What a graph is like that was built by the operations of the library. Nodes fall into components,
each led by the smallest of its nodes, the representative:

* representatives lead themselves, and the members recorded there are exactly the nodes that name
  them;
* the tokens of a component are stored at its representative and nowhere else;
* nodes of a component of several nodes are `fused`, and carry no filter;
* links name nodes of the graph, each once, and the index of the links agrees with their list.

Every way of writing to a graph keeps this, provided that what is written fits; fusing components
is treated with the operation itself.
-/

namespace ValueFlow.Graph

variable {φ τ : Type} [Ordered τ] {g : Graph φ τ} {n m r : NodeId}

/-- The members recorded at a node. -/
def members (g : Graph φ τ) (n : NodeId) : List NodeId := g.readAt n Node.members []

theorem component_eq_members :
    g.component n = if (g.members n).isEmpty then [n] else g.members n := by
  unfold component members readAt
  cases g.node? n <;> rfl

@[simp] theorem members_modify {f : Node φ τ → Node φ τ} (hf : ∀ v, (f v).members = v.members) :
    (g.modify n f).members m = g.members m := readAt_modify hf

@[simp] theorem members_addNode {label : Option Label} :
    (g.addNode label).2.members m = g.members m := readAt_addNode fun _ => rfl

/-- **A graph as the operations of the library build it.** -/
structure WellFormed (g : Graph φ τ) : Prop where
  contains_rep : ∀ {n}, g.contains n → g.contains (g.representative n)
  rep_rep : ∀ {n}, g.representative (g.representative n) = g.representative n
  rep_le : ∀ {n}, (g.representative n).index ≤ n.index
  mem_component : ∀ {r m}, g.contains r → g.representative r = r →
    (m ∈ g.component r ↔ g.contains m ∧ g.representative m = r)
  nodup_component : ∀ {r}, g.contains r → g.representative r = r → (g.component r).Nodup
  length_members : ∀ {n}, (g.members n).length ≠ 1
  members_of_ne : ∀ {n}, g.representative n ≠ n → g.members n = []
  fused_iff : ∀ {n}, g.contains n →
    (g.fused n ↔ ∃ m, g.contains m ∧ m ≠ n ∧ g.representative m = g.representative n)
  unfiltered : ∀ {n}, g.fused n → g.filter? n = none
  stored_of_ne : ∀ {n}, g.representative n ≠ n → g.stored n = ∅
  contains_successor : ∀ {n m}, m ∈ g.successors n → g.contains m
  nodup_successors : ∀ {n}, (g.successors n).Nodup
  linked_iff : ∀ {n m}, g.linked n m ↔ m ∈ g.successors n

/-- **The components of a graph fit together**: every node has a representative, which knows exactly
the nodes that name it. Of a well-formed graph this is what does not depend on where links lead. -/
structure Grouped (g : Graph φ τ) : Prop where
  contains_rep : ∀ {n}, g.contains n → g.contains (g.representative n)
  rep_rep : ∀ {n}, g.representative (g.representative n) = g.representative n
  mem_component : ∀ {r m}, g.contains r → g.representative r = r →
    (m ∈ g.component r ↔ g.contains m ∧ g.representative m = r)

theorem WellFormed.grouped (hg : g.WellFormed) : g.Grouped :=
  ⟨hg.contains_rep, hg.rep_rep, hg.mem_component⟩

theorem wellFormed_empty : (empty : Graph φ τ).WellFormed := by
  have hc : ∀ n, ¬ (empty : Graph φ τ).contains n := fun n => by simp [contains, empty]
  refine ⟨fun h => absurd h (hc _), ?_, ?_, fun h => absurd h (hc _), fun h => absurd h (hc _),
    ?_, ?_, fun h => absurd h (hc _), ?_, ?_, ?_, ?_, ?_⟩ <;> intro n
  · rw [representative_of_not_contains (hc n), representative_of_not_contains (hc n)]
  · exact Nat.le_of_eq (congrArg NodeId.index (representative_of_not_contains (hc n)))
  · rw [members, readAt_of_not_contains (hc n)]
    exact Nat.zero_ne_one
  · exact fun h => absurd (representative_of_not_contains (hc n)) h
  · intro _
    rw [filter?_eq, readAt_of_not_contains (hc n)]
  · exact fun _ => stored_of_not_contains (hc n)
  · exact fun h => absurd (contains_of_mem_successors h) (hc n)
  · rw [successors_eq, readAt_of_not_contains (hc n)]
    exact List.nodup_nil
  · intro m
    rw [linked_eq, successors_eq, readAt_of_not_contains (hc n), readAt_of_not_contains (hc n)]
    simp

/-! ## 1. Components -/

section

variable (hg : g.Grouped)
include hg

theorem Grouped.mem_component_rep (hn : g.contains n) : n ∈ g.component (g.representative n) :=
  (hg.mem_component (hg.contains_rep hn) hg.rep_rep).mpr ⟨hn, rfl⟩

theorem Grouped.contains_iff_rep : g.contains (g.representative n) ↔ g.contains n := by
  refine ⟨fun h => Classical.byContradiction fun hc => hc ?_, hg.contains_rep⟩
  rw [representative_of_not_contains hc] at h
  exact h

theorem Grouped.tokens_rep : g.tokens (g.representative n) = g.tokens n := by
  unfold tokens
  rw [hg.rep_rep]

end

section

variable (hg : g.WellFormed)
include hg

theorem WellFormed.contains_iff_rep : g.contains (g.representative n) ↔ g.contains n :=
  hg.grouped.contains_iff_rep

/-- Two nodes of one component are unfiltered. -/
theorem WellFormed.filter?_of_ne (hn : g.contains n) (hm : g.contains m) (hne : m ≠ n)
    (h : g.representative m = g.representative n) : g.filter? n = none :=
  hg.unfiltered ((hg.fused_iff hn).mpr ⟨m, hm, hne, h⟩)

/-- The filter of a node is that of its representative. -/
theorem WellFormed.filter?_rep : g.filter? (g.representative n) = g.filter? n := by
  by_cases hn : g.contains n
  · by_cases hr : g.representative n = n
    · rw [hr]
    · rw [hg.filter?_of_ne hn (hg.contains_rep hn) hr hg.rep_rep,
        hg.filter?_of_ne (hg.contains_rep hn) hn (Ne.symm hr) hg.rep_rep.symm]
  · rw [representative_of_not_contains hn]

end

theorem tokens_congr (h : g.representative m = g.representative n) : g.tokens m = g.tokens n := by
  unfold tokens
  rw [h]

theorem tokens_of_rep (h : g.representative n = n) : g.tokens n = g.stored n := by
  unfold tokens
  rw [h]

theorem contains_of_mem_tokens (hg : g.WellFormed) {t : τ} (h : t ∈ g.tokens n) : g.contains n :=
  hg.contains_iff_rep.mp (contains_of_mem_stored h)

/-! ## 2. Writing -/

/-- Two graphs with the same nodes in the same components. -/
structure SameShape (g g' : Graph φ τ) : Prop where
  contains : ∀ n, g'.contains n = g.contains n
  representative : ∀ n, g'.representative n = g.representative n
  members : ∀ n, g'.members n = g.members n
  fused : ∀ n, g'.fused n = g.fused n

theorem SameShape.component {g' : Graph φ τ} (h : SameShape g g') (n : NodeId) :
    g'.component n = g.component n := by
  rw [component_eq_members, component_eq_members, h.members]

theorem sameShape_modify {f : Node φ τ → Node φ τ}
    (hr : ∀ v, (f v).representative = v.representative) (hm : ∀ v, (f v).members = v.members)
    (hf : ∀ v, (f v).fused = v.fused) : SameShape g (g.modify n f) :=
  ⟨fun _ => contains_modify, fun _ => representative_modify hr, fun _ => members_modify hm,
    fun _ => fused_modify hf⟩

/-- Components that fit together do so in every graph of the same shape. -/
theorem Grouped.transfer {g' : Graph φ τ} (hg : g.Grouped) (h : SameShape g g') : g'.Grouped where
  contains_rep hn := by
    rw [h.contains, h.representative]
    exact hg.contains_rep (h.contains _ ▸ hn)
  rep_rep := by
    intro n
    rw [h.representative, h.representative, hg.rep_rep]
  mem_component hr hrr := by
    rw [h.contains] at hr
    rw [h.representative] at hrr
    rw [h.component, hg.mem_component hr hrr, h.contains, h.representative]

/-- **What has the shape of a well-formed graph is well-formed** if its tokens, filters and links
fit the shape. -/
theorem WellFormed.transfer {g' : Graph φ τ} (hg : g.WellFormed) (h : SameShape g g')
    (hfilter : ∀ n, g.fused n → g'.filter? n = none)
    (hstored : ∀ n, g.representative n ≠ n → g'.stored n = ∅)
    (hsucc : ∀ n m, m ∈ g'.successors n → g.contains m)
    (hnodup : ∀ n, (g'.successors n).Nodup)
    (hlinked : ∀ n m, g'.linked n m ↔ m ∈ g'.successors n) : g'.WellFormed where
  contains_rep := (hg.grouped.transfer h).contains_rep
  rep_rep := (hg.grouped.transfer h).rep_rep
  rep_le := by
    intro n
    rw [h.representative]
    exact hg.rep_le
  mem_component := (hg.grouped.transfer h).mem_component
  nodup_component hr hrr := by
    rw [h.contains] at hr
    rw [h.representative] at hrr
    rw [h.component]
    exact hg.nodup_component hr hrr
  length_members := by
    intro n
    rw [h.members]
    exact hg.length_members
  members_of_ne hn := by
    rw [h.representative] at hn
    rw [h.members]
    exact hg.members_of_ne hn
  fused_iff hn := by
    rw [h.contains] at hn
    simp only [h.fused, h.contains, h.representative]
    exact hg.fused_iff hn
  unfiltered hn := hfilter _ (h.fused _ ▸ hn)
  stored_of_ne hn := hstored _ (h.representative _ ▸ hn)
  contains_successor hm := by
    rw [h.contains]
    exact hsucc _ _ hm
  nodup_successors := hnodup _
  linked_iff := hlinked _ _

/-- Writing to fields that say nothing of components, tokens, filters and links. -/
theorem WellFormed.modify {f : Node φ τ → Node φ τ} (hg : g.WellFormed) (n : NodeId)
    (hr : ∀ v, (f v).representative = v.representative) (hm : ∀ v, (f v).members = v.members)
    (hf : ∀ v, (f v).fused = v.fused) (ht : ∀ v, (f v).tokens = v.tokens)
    (hl : ∀ v, (f v).links = v.links) (hi : ∀ v, (f v).filter = v.filter) :
    (g.modify n f).WellFormed := by
  refine hg.transfer (sameShape_modify hr hm hf) (fun k hk => ?_) (fun k hk => ?_)
    (fun k m hm => ?_) (fun k => ?_) fun k m => ?_
  · rw [filter?_modify hi]
    exact hg.unfiltered hk
  · rw [stored_modify ht]
    exact hg.stored_of_ne hk
  · rw [successors_modify hl] at hm
    exact hg.contains_successor hm
  · rw [successors_modify hl]
    exact hg.nodup_successors
  · rw [linked_modify hl, successors_modify hl]
    exact hg.linked_iff

/-- Tokens are put into representatives only. -/
theorem WellFormed.setTokens (hg : g.WellFormed) {h : TokenSet τ → TokenSet τ}
    (hr : g.representative r = r) :
    (g.modify r fun v => { v with tokens := h v.tokens }).WellFormed := by
  refine hg.transfer (sameShape_modify (fun _ => rfl) (fun _ => rfl) fun _ => rfl)
    (fun k hk => ?_) (fun k hk => ?_) (fun k m hm => ?_) (fun k => ?_) fun k m => ?_
  · simpa using hg.unfiltered hk
  · have hne : r ≠ k := fun e => hk (e ▸ hr)
    rw [stored_eq, readAt_modify_of_ne hne, ← stored_eq]
    exact hg.stored_of_ne hk
  · exact hg.contains_successor (by simpa using hm)
  · simpa using hg.nodup_successors
  · simpa using hg.linked_iff

/-- Filters are put on nodes that are not fused. -/
theorem WellFormed.setFilter (hg : g.WellFormed) {f : φ} (hn : ¬ g.fused n) :
    (g.modify n fun v => { v with filter := some f }).WellFormed := by
  refine hg.transfer (sameShape_modify (fun _ => rfl) (fun _ => rfl) fun _ => rfl)
    (fun k hk => ?_) (fun k hk => ?_) (fun k m hm => ?_) (fun k => ?_) fun k m => ?_
  · have hne : n ≠ k := fun e => hn (e ▸ hk)
    rw [filter?_eq, readAt_modify_of_ne hne, ← filter?_eq]
    exact hg.unfiltered hk
  · simpa using hg.stored_of_ne hk
  · exact hg.contains_successor (by simpa using hm)
  · simpa using hg.nodup_successors
  · simpa using hg.linked_iff

/-! ## 3. Links -/

theorem mem_links_insert {l : Links} {a b : NodeId} (h : l.contains a ↔ a ∈ l.order) :
    b ∈ (l.insert a).order ↔ b ∈ l.order ∨ b = a := by
  unfold Links.insert
  by_cases ha : l.contains a = true
  · rw [if_pos ha]
    exact ⟨.inl, fun hb => hb.elim id fun e => e ▸ h.mp ha⟩
  · rw [if_neg ha]
    simp

theorem links_contains_insert {l : Links} {a b : NodeId} :
    (l.insert a).contains b = true ↔ l.contains b = true ∨ b = a := by
  unfold Links.insert
  by_cases ha : l.contains a = true
  · rw [if_pos ha]
    exact ⟨.inl, fun hb => hb.elim id fun e => e ▸ ha⟩
  · rw [if_neg ha]
    unfold Links.contains
    rw [SortedSet.contains_eq_true, SortedSet.contains_eq_true, SortedSet.mem_insert, or_comm]

theorem nodup_links_insert {l : Links} {a : NodeId} (h : l.contains a ↔ a ∈ l.order)
    (hl : l.order.Nodup) : (l.insert a).order.Nodup := by
  unfold Links.insert
  by_cases ha : l.contains a = true
  · rw [if_pos ha]
    exact hl
  · rw [if_neg ha]
    refine List.nodup_append.mpr ⟨hl, List.pairwise_singleton _ a, ?_⟩
    rintro x hx y hy rfl
    rw [List.mem_singleton] at hy
    exact ha (h.mpr (hy ▸ hx))

theorem mem_successors_addLink (hg : g.WellFormed) (hn : g.contains n) {a b k : NodeId} :
    b ∈ (g.modify n fun v => { v with links := v.links.insert a }).successors k ↔
      b ∈ g.successors k ∨ (k = n ∧ b = a) := by
  by_cases hk : n = k
  · subst hk
    obtain ⟨v, hv⟩ := exists_node? hn
    have hl : v.links.contains a ↔ a ∈ v.links.order := by
      have := hg.linked_iff (n := n) (m := a)
      simpa [linked, successors, hv] using this
    rw [successors_eq, readAt_modify_self hn, successors_eq]
    unfold readAt
    rw [hv]
    simpa using mem_links_insert hl
  · rw [successors_eq, readAt_modify_of_ne hk, ← successors_eq]
    exact ⟨.inl, fun h => h.elim id fun h => absurd h.1.symm hk⟩

/-- Links are made between nodes of the graph. -/
theorem WellFormed.addLink (hg : g.WellFormed) {a : NodeId} (hn : g.contains n)
    (ha : g.contains a) :
    (g.modify n fun v => { v with links := v.links.insert a }).WellFormed := by
  obtain ⟨v, hv⟩ := exists_node? hn
  have hl : ∀ b, v.links.contains b ↔ b ∈ v.links.order := fun b => by
    have := hg.linked_iff (n := n) (m := b)
    simpa [linked, successors, hv] using this
  refine hg.transfer (sameShape_modify (fun _ => rfl) (fun _ => rfl) fun _ => rfl)
    (fun k hk => ?_) (fun k hk => ?_) (fun k m hm => ?_) (fun k => ?_) fun k m => ?_
  · simpa using hg.unfiltered hk
  · simpa using hg.stored_of_ne hk
  · rcases (mem_successors_addLink hg hn).mp hm with hm | ⟨_, rfl⟩
    · exact hg.contains_successor hm
    · exact ha
  · by_cases hk : n = k
    · subst hk
      rw [successors_eq, readAt_modify_self hn]
      unfold readAt
      rw [hv]
      have hd := hg.nodup_successors (n := n)
      rw [successors_eq, readAt, hv] at hd
      exact nodup_links_insert (hl a) hd
    · rw [successors_eq, readAt_modify_of_ne hk, ← successors_eq]
      exact hg.nodup_successors
  · rw [mem_successors_addLink hg hn]
    by_cases hk : n = k
    · subst hk
      rw [linked_eq, readAt_modify_self hn, ← hg.linked_iff, linked_eq]
      unfold readAt
      rw [hv]
      simpa using links_contains_insert
    · rw [linked_eq, readAt_modify_of_ne hk, ← linked_eq, hg.linked_iff]
      exact ⟨.inl, fun h => h.elim id fun h => absurd h.1.symm hk⟩

/-! ## 4. New nodes -/

/-- A new node is a component of its own. -/
theorem Grouped.addNode (hg : g.Grouped) (label : Option Label) :
    (g.addNode label).2.Grouped where
  contains_rep hn := by
    rw [representative_addNode, contains_addNode]
    rcases contains_addNode.mp hn with hn | rfl
    · exact .inl (hg.contains_rep hn)
    · exact .inr (representative_of_not_contains not_contains_size)
  rep_rep := by
    intro n
    rw [representative_addNode, representative_addNode, hg.rep_rep]
  mem_component {r m} hr hrr := by
    rw [representative_addNode] at hrr
    rw [component_addNode, contains_addNode, representative_addNode]
    rcases contains_addNode.mp hr with hr | rfl
    · rw [hg.mem_component hr hrr]
      refine ⟨fun h => ⟨.inl h.1, h.2⟩, fun h => ⟨h.1.resolve_right ?_, h.2⟩⟩
      rintro rfl
      rw [representative_of_not_contains not_contains_size] at h
      exact not_contains_size (h.2 ▸ hr)
    · rw [component_eq, readAt_of_not_contains not_contains_size, List.mem_singleton]
      refine ⟨fun h => ⟨.inr h, h ▸ hrr⟩, fun h => ?_⟩
      rcases h.1 with hm | hm
      · exact absurd (h.2 ▸ hg.contains_rep hm) not_contains_size
      · exact hm

theorem WellFormed.addNode (hg : g.WellFormed) (label : Option Label) :
    (g.addNode label).2.WellFormed where
  contains_rep := (hg.grouped.addNode label).contains_rep
  rep_rep := (hg.grouped.addNode label).rep_rep
  rep_le := by
    intro n
    rw [representative_addNode]
    exact hg.rep_le
  mem_component := (hg.grouped.addNode label).mem_component
  nodup_component {r} hr hrr := by
    rw [representative_addNode] at hrr
    rw [component_addNode]
    rcases contains_addNode.mp hr with hr | rfl
    · exact hg.nodup_component hr hrr
    · rw [component_eq, readAt_of_not_contains not_contains_size]
      exact List.pairwise_singleton _ _
  length_members := by
    intro n
    rw [members_addNode]
    exact hg.length_members
  members_of_ne hn := by
    rw [representative_addNode] at hn
    rw [members_addNode]
    exact hg.members_of_ne hn
  fused_iff {n} hn := by
    simp only [fused_addNode, representative_addNode]
    rcases contains_addNode.mp hn with hn | rfl
    · rw [hg.fused_iff hn]
      refine ⟨fun ⟨m, hm, h⟩ => ⟨m, contains_addNode.mpr (.inl hm), h⟩, fun ⟨m, hm, hne, h⟩ => ?_⟩
      rcases contains_addNode.mp hm with hm | rfl
      · exact ⟨m, hm, hne, h⟩
      · rw [representative_of_not_contains not_contains_size] at h
        exact absurd (h ▸ hg.contains_rep hn) not_contains_size
    · rw [fused_eq, readAt_of_not_contains not_contains_size]
      refine ⟨nofun, fun ⟨m, hm, hne, h⟩ => ?_⟩
      rw [representative_of_not_contains not_contains_size] at h
      rcases contains_addNode.mp hm with hm | rfl
      · exact absurd (h ▸ hg.contains_rep hm) not_contains_size
      · exact absurd rfl hne
  unfiltered hn := by
    rw [fused_addNode] at hn
    rw [filter?_addNode]
    exact hg.unfiltered hn
  stored_of_ne hn := by
    rw [representative_addNode] at hn
    rw [stored_addNode]
    exact hg.stored_of_ne hn
  contains_successor hm := by
    rw [successors_addNode] at hm
    exact contains_addNode.mpr (.inl (hg.contains_successor hm))
  nodup_successors := by
    intro n
    rw [successors_addNode]
    exact hg.nodup_successors
  linked_iff := by
    intro n m
    rw [successors_addNode, ← hg.linked_iff, linked_addNode]

end ValueFlow.Graph
