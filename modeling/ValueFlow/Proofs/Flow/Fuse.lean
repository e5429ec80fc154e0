import ValueFlow.Flow.Fuse
import ValueFlow.Proofs.Flow.Passing
import ValueFlow.Proofs.Graph.Logical

/-!
# What fusing does

To fuse the components of a list of representatives makes one component of them: its leader is the
smallest of the representatives, its tokens are the tokens of all (`representative_joined`,
`mem_tokens_joined`). Links, filters and listeners stay as they are, the components still fit
together (`grouped_joined`), and a well-formed graph stays well-formed (`wellFormed_joined`). On the
agenda, what waited for the parts waits for the whole, and every part passes on what is new to it
(`waits_fuse`).
-/

namespace ValueFlow

variable {φ τ : Type} [Ordered τ]

/-! ## 1. Writing to many nodes -/

namespace Graph

theorem node?_foldl_modify {f : Node φ τ → Node φ τ} (hf : ∀ v, f (f v) = f v) (ns : List NodeId)
    (g : Graph φ τ) (n : NodeId) :
    (ns.foldl (fun g m => g.modify m f) g).node? n =
      if n ∈ ns then (g.node? n).map f else g.node? n := by
  induction ns generalizing g with
  | nil => simp
  | cons m ns ih =>
    rw [List.foldl_cons, ih, node?_modify]
    by_cases hm : m = n
    · subst hm
      rw [if_pos rfl, if_pos List.mem_cons_self, Option.map_map]
      have hff : f ∘ f = f := funext hf
      rw [hff]
      by_cases hn : m ∈ ns
      · rw [if_pos hn]
      · rw [if_neg hn]
    · rw [if_neg hm]
      by_cases hn : n ∈ ns
      · rw [if_pos hn, if_pos (List.mem_cons_of_mem _ hn)]
      · rw [if_neg hn, if_neg]
        rw [List.mem_cons, not_or]
        exact ⟨Ne.symm hm, hn⟩

end Graph

namespace Flow

open ValueFlow.Graph

variable {g : Graph φ τ} {cycle : List NodeId} {target n m r : NodeId} {t : τ}

/-! ## 2. The parts -/

/-- The components that are to be fused, as they are before. -/
def partsOf (g : Graph φ τ) (cycle : List NodeId) : List (Part τ) :=
  cycle.map fun r => ⟨g.component r, g.stored r⟩

/-- The tokens of all parts. -/
def allTokens (g : Graph φ τ) (cycle : List NodeId) : TokenSet τ :=
  (partsOf g cycle).foldl (fun all p => all ∪ p.tokens) ∅

/-- The nodes of all parts. -/
def allMembers (g : Graph φ τ) (cycle : List NodeId) : List NodeId :=
  (partsOf g cycle).flatMap Part.members

theorem mem_allTokens : t ∈ allTokens g cycle ↔ ∃ r ∈ cycle, t ∈ g.stored r := by
  have hfold : ∀ (ps : List (Part τ)) (s : TokenSet τ),
      t ∈ ps.foldl (fun all p => all ∪ p.tokens) s ↔ t ∈ s ∨ ∃ p ∈ ps, t ∈ p.tokens := by
    intro ps
    induction ps with
    | nil => simp
    | cons p ps ih =>
      intro s
      rw [List.foldl_cons, ih, SortedSet.mem_union, or_assoc]
      simp
  unfold allTokens partsOf
  rw [hfold]
  simp

/-- **Representatives that can be fused**: different ones, of nodes without a filter. -/
structure Fusable (g : Graph φ τ) (cycle : List NodeId) : Prop where
  grouped : g.Grouped
  nodup : cycle.Nodup
  contains : ∀ r ∈ cycle, g.contains r
  isFusable : ∀ r ∈ cycle, g.isFusable r

section Fusable

variable (h : Fusable g cycle)
include h

theorem Fusable.rep (hr : r ∈ cycle) : g.representative r = r :=
  (isFusable_iff.mp (h.isFusable r hr)).1

theorem Fusable.mem_allTokens : t ∈ allTokens g cycle ↔ ∃ r ∈ cycle, t ∈ g.tokens r := by
  rw [Flow.mem_allTokens]
  refine exists_congr fun r => and_congr_right fun hr => ?_
  rw [tokens_of_rep (h.rep hr)]

theorem Fusable.mem_allMembers :
    n ∈ allMembers g cycle ↔ g.contains n ∧ g.representative n ∈ cycle := by
  unfold allMembers partsOf
  simp only [List.mem_flatMap, List.mem_map, exists_exists_and_eq_and]
  constructor
  · rintro ⟨r, hr, hn⟩
    obtain ⟨hc, e⟩ := (h.grouped.mem_component (h.contains r hr) (h.rep hr)).mp hn
    exact ⟨hc, e ▸ hr⟩
  · rintro ⟨hc, hr⟩
    exact ⟨_, hr, h.grouped.mem_component_rep hc⟩

theorem Fusable.nodup_allMembers (hg : g.WellFormed) : (allMembers g cycle).Nodup := by
  unfold allMembers partsOf
  rw [List.flatMap_map]
  refine List.pairwise_flatMap.mpr ⟨fun r hr => ?_, ?_⟩
  · exact hg.nodup_component (h.contains r hr) (h.rep hr)
  · refine List.Pairwise.imp_of_mem ?_ h.nodup
    intro r r' hr hr' hne x hx y hy e
    have hx := (h.grouped.mem_component (h.contains r hr) (h.rep hr)).mp hx
    have hy := (h.grouped.mem_component (h.contains r' hr') (h.rep hr')).mp hy
    exact hne (hx.2.symm.trans (e ▸ hy.2))

end Fusable

/-! ## 3. The graph after fusing -/

/-- What the node `v` at `n` becomes. -/
def joinedNode (g : Graph φ τ) (cycle : List NodeId) (target n : NodeId) (v : Node φ τ) :
    Node φ τ :=
  { v with
    tokens := if n = target then allTokens g cycle else if n ∈ cycle then ∅ else v.tokens
    members := if n = target then allMembers g cycle else if n ∈ cycle then [] else v.members
    representative := if n ∈ allMembers g cycle then target else v.representative
    fused := if n ∈ allMembers g cycle then true else v.fused }

theorem node?_joined : (joined g cycle target (partsOf g cycle)).node? n =
    (g.node? n).map (joinedNode g cycle target n) := by
  have hempty := node?_foldl_modify
    (f := fun v : Node φ τ => { v with tokens := ∅, members := [] }) (fun _ => rfl) cycle g n
  have hlead := node?_foldl_modify
    (f := fun v : Node φ τ => { v with representative := target, fused := true }) (fun _ => rfl)
    (allMembers g cycle)
    (cycle.foldl (fun g r => g.modify r fun v => { v with tokens := ∅, members := [] }) g) n
  rw [hempty] at hlead
  unfold joined
  dsimp only
  rw [node?_modify]
  change (if target = n then
      Option.map (fun v => { v with tokens := allTokens g cycle, members := allMembers g cycle })
        (Graph.node? (List.foldl _ _ (allMembers g cycle)) n)
    else Graph.node? (List.foldl _ _ (allMembers g cycle)) n) = _
  rw [hlead]
  cases g.node? n with
  | none => simp
  | some v =>
    by_cases ht : target = n <;> by_cases hm : n ∈ allMembers g cycle <;>
      by_cases hc : n ∈ cycle <;> simp [joinedNode, ht, eq_comm, hm, hc]

/-- Readings that fusing keeps. -/
theorem readAt_joined {β : Type} {s : Node φ τ → β} {d : β}
    (hs : ∀ v, s (joinedNode g cycle target n v) = s v) :
    (joined g cycle target (partsOf g cycle)).readAt n s d = g.readAt n s d := by
  unfold readAt
  rw [node?_joined]
  cases g.node? n with
  | none => rfl
  | some v => exact hs v

@[simp] theorem contains_joined :
    (joined g cycle target (partsOf g cycle)).contains n = g.contains n := by
  have hnode : (joined g cycle target (partsOf g cycle)).node? n = none ↔ g.node? n = none := by
    rw [node?_joined, Option.map_eq_none_iff]
  rw [node?_eq_none, node?_eq_none] at hnode
  rw [Bool.eq_iff_iff]
  exact not_iff_not.mp hnode

@[simp] theorem successors_joined :
    (joined g cycle target (partsOf g cycle)).successors n = g.successors n := by
  rw [successors_eq, successors_eq]
  exact readAt_joined fun _ => rfl

@[simp] theorem linked_joined :
    (joined g cycle target (partsOf g cycle)).linked n m = g.linked n m := by
  rw [linked_eq, linked_eq]
  exact readAt_joined fun _ => rfl

@[simp] theorem listeners_joined :
    (joined g cycle target (partsOf g cycle)).listeners n = g.listeners n := by
  rw [listeners_eq, listeners_eq]
  exact readAt_joined fun _ => rfl

@[simp] theorem filter?_joined :
    (joined g cycle target (partsOf g cycle)).filter? n = g.filter? n := by
  rw [filter?_eq, filter?_eq]
  exact readAt_joined fun _ => rfl

@[simp] theorem mark_joined :
    (joined g cycle target (partsOf g cycle)).mark n = g.mark n := by
  rw [mark_eq, mark_eq]
  exact readAt_joined fun _ => rfl

section Joined

variable (h : Fusable g cycle)
include h

/-- **Fused nodes have a common leader**, the others keep theirs. -/
theorem representative_joined :
    (joined g cycle target (partsOf g cycle)).representative n =
      if g.representative n ∈ cycle then target else g.representative n := by
  by_cases hn : g.contains n
  · obtain ⟨v, hv⟩ := exists_node? hn
    have hmem : n ∈ allMembers g cycle ↔ g.representative n ∈ cycle := by
      rw [h.mem_allMembers]
      exact and_iff_right hn
    have hrep : g.representative n = v.representative := by
      unfold representative
      rw [hv]
    unfold representative at hrep ⊢
    rw [node?_joined, hv]
    show (if n ∈ allMembers g cycle then target else v.representative) = _
    simp only [hmem, representative, hv]
  · rw [representative_of_not_contains (by rw [contains_joined]; exact hn),
      representative_of_not_contains hn, if_neg]
    exact fun hc => hn (h.contains n hc)

theorem fused_joined : (joined g cycle target (partsOf g cycle)).fused n ↔
    g.fused n ∨ (g.contains n ∧ g.representative n ∈ cycle) := by
  rw [← h.mem_allMembers]
  by_cases hn : g.contains n
  · obtain ⟨v, hv⟩ := exists_node? hn
    unfold fused
    rw [node?_joined, hv]
    show (if n ∈ allMembers g cycle then true else v.fused) = true ↔ v.fused = true ∨ _
    by_cases hm : n ∈ allMembers g cycle
    · rw [if_pos hm]
      exact ⟨fun _ => .inr hm, fun _ => rfl⟩
    · rw [if_neg hm]
      exact ⟨.inl, fun h => h.resolve_right hm⟩
  · rw [fused_eq, fused_eq, readAt_of_not_contains (by rw [contains_joined]; exact hn),
      readAt_of_not_contains hn]
    exact ⟨nofun, fun h' => h'.elim nofun fun hm => absurd (h.mem_allMembers.mp hm).1 hn⟩

/-- In a cycle of at least two, every node of it has another one. -/
theorem exists_other (htwo : 2 ≤ cycle.length) (n : NodeId) :
    ∃ m, g.contains m ∧ m ≠ n ∧ g.representative m ∈ cycle := by
  obtain ⟨a, b, rest, e⟩ : ∃ a b rest, cycle = a :: b :: rest := by
    match cycle, htwo with
    | a :: b :: rest, _ => exact ⟨a, b, rest, rfl⟩
  have ha : a ∈ cycle := by rw [e]; exact List.mem_cons_self
  have hb : b ∈ cycle := by rw [e]; exact List.mem_cons_of_mem _ List.mem_cons_self
  have hab : a ≠ b := by
    have := h.nodup
    rw [e] at this
    exact fun hab => (List.nodup_cons.mp this).1 (hab ▸ List.mem_cons_self)
  by_cases han : a = n
  · exact ⟨b, h.contains b hb, fun hbn => hab (han.trans hbn.symm), (h.rep hb).symm ▸ hb⟩
  · exact ⟨a, h.contains a ha, han, (h.rep ha).symm ▸ ha⟩

variable (ht : target ∈ cycle)
include ht

theorem representative_joined_target :
    (joined g cycle target (partsOf g cycle)).representative target = target := by
  rw [representative_joined h, h.rep ht, if_pos ht]

theorem stored_joined : (joined g cycle target (partsOf g cycle)).stored n =
    if n = target then allTokens g cycle else if n ∈ cycle then ∅ else g.stored n := by
  by_cases hn : g.contains n
  · obtain ⟨v, hv⟩ := exists_node? hn
    unfold stored
    rw [node?_joined, hv]
    rfl
  · have hne : n ≠ target := fun e => hn (e ▸ h.contains target ht)
    have hnc : n ∉ cycle := fun hc => hn (h.contains n hc)
    rw [stored_of_not_contains (by rw [contains_joined]; exact hn), if_neg hne, if_neg hnc,
      stored_of_not_contains hn]

theorem members_joined : (joined g cycle target (partsOf g cycle)).members n =
    if n = target then allMembers g cycle else if n ∈ cycle then [] else g.members n := by
  by_cases hn : g.contains n
  · obtain ⟨v, hv⟩ := exists_node? hn
    unfold members readAt
    rw [node?_joined, hv]
    rfl
  · have hne : n ≠ target := fun e => hn (e ▸ h.contains target ht)
    have hnc : n ∉ cycle := fun hc => hn (h.contains n hc)
    unfold members
    rw [readAt_of_not_contains (by rw [contains_joined]; exact hn), if_neg hne, if_neg hnc,
      readAt_of_not_contains hn]

/-- **Fused nodes hold the tokens of all parts**, the others what they held. -/
theorem mem_tokens_joined : t ∈ (joined g cycle target (partsOf g cycle)).tokens n ↔
    if g.representative n ∈ cycle then t ∈ allTokens g cycle else t ∈ g.tokens n := by
  unfold tokens
  rw [representative_joined h]
  by_cases hn : g.representative n ∈ cycle
  · rw [if_pos hn, if_pos hn, stored_joined h ht, if_pos rfl]
  · have hne : g.representative n ≠ target := fun e => hn (e ▸ ht)
    rw [if_neg hn, if_neg hn, stored_joined h ht, if_neg hne, if_neg hn]

theorem component_joined_target :
    (joined g cycle target (partsOf g cycle)).component target = allMembers g cycle := by
  rw [component_eq_members, members_joined h ht, if_pos rfl, if_neg]
  rw [List.isEmpty_iff]
  intro hnil
  have hmem : target ∈ allMembers g cycle :=
    h.mem_allMembers.mpr ⟨h.contains target ht, (h.rep ht).symm ▸ ht⟩
  rw [hnil] at hmem
  exact List.not_mem_nil hmem

theorem component_joined_of_not_mem (hr : r ∉ cycle) :
    (joined g cycle target (partsOf g cycle)).component r = g.component r := by
  have hne : r ≠ target := fun e => hr (e ▸ ht)
  rw [component_eq_members, component_eq_members, members_joined h ht, if_neg hne, if_neg hr]

/-- Nodes outside the cycle have the same companions as before. -/
theorem representative_joined_eq_iff (hn : g.representative n ∉ cycle) :
    (joined g cycle target (partsOf g cycle)).representative m = g.representative n ↔
      g.representative m = g.representative n := by
  rw [representative_joined h]
  by_cases hm : g.representative m ∈ cycle
  · rw [if_pos hm]
    refine ⟨fun e => absurd (e ▸ ht) hn, fun e => absurd (e ▸ hm) hn⟩
  · rw [if_neg hm]

/-- Who leads after fusing is the target, or led before and is not on the cycle. -/
theorem leads_joined_iff :
    (joined g cycle target (partsOf g cycle)).representative r = r ↔
      r = target ∨ r ∉ cycle ∧ g.representative r = r := by
  rw [representative_joined h]
  by_cases hc : g.representative r ∈ cycle
  · rw [if_pos hc]
    refine ⟨fun e => .inl e.symm, fun hr => ?_⟩
    rcases hr with e | ⟨hrc, e⟩
    · exact e.symm
    · exact absurd (e ▸ hc) hrc
  · rw [if_neg hc]
    refine ⟨fun e => .inr ⟨e ▸ hc, e⟩, fun hr => ?_⟩
    rcases hr with e | ⟨_, e⟩
    · rw [e, h.rep ht] at hc
      exact absurd ht hc
    · exact e

/-- **Fusing keeps components that fit together.** -/
theorem grouped_joined : (joined g cycle target (partsOf g cycle)).Grouped where
  contains_rep {n} hn := by
    rw [contains_joined] at hn
    rw [contains_joined, representative_joined h]
    split
    · exact h.contains target ht
    · exact h.grouped.contains_rep hn
  rep_rep {n} := by
    rw [representative_joined h (n := n)]
    split
    · exact representative_joined_target h ht
    · rename_i hn
      rw [representative_joined h, h.grouped.rep_rep, if_neg hn]
  mem_component {r m} hr hrr := by
    rw [contains_joined] at hr ⊢
    rcases (leads_joined_iff h ht).mp hrr with rfl | ⟨hrc, hrep⟩
    · rw [component_joined_target h ht, h.mem_allMembers, representative_joined h]
      by_cases hm : g.representative m ∈ cycle
      · simp [hm]
      · rw [if_neg hm]
        exact ⟨fun h' => absurd h'.2 hm, fun h' => absurd (h'.2 ▸ ht) hm⟩
    · have hiff := representative_joined_eq_iff h ht (n := r) (m := m) (hrep.symm ▸ hrc)
      rw [hrep] at hiff
      rw [component_joined_of_not_mem h ht hrc, h.grouped.mem_component hr hrep, hiff]

/-- **Fusing keeps a graph well-formed**, if the leader is the smallest of its cycle. -/
theorem wellFormed_joined (hg : g.WellFormed) (htwo : 2 ≤ cycle.length)
    (hmin : ∀ r ∈ cycle, target.index ≤ r.index) :
    (joined g cycle target (partsOf g cycle)).WellFormed where
  contains_rep := (grouped_joined h ht).contains_rep
  rep_rep := (grouped_joined h ht).rep_rep
  rep_le {n} := by
    rw [representative_joined h]
    have hle := hg.rep_le (n := n)
    split
    · rename_i hn
      exact Nat.le_trans (hmin _ hn) hle
    · exact hle
  mem_component := (grouped_joined h ht).mem_component
  nodup_component {r} hr hrr := by
    rw [contains_joined] at hr
    rcases (leads_joined_iff h ht).mp hrr with rfl | ⟨hrc, hrep⟩
    · rw [component_joined_target h ht]
      exact h.nodup_allMembers hg
    · rw [component_joined_of_not_mem h ht hrc]
      exact hg.nodup_component hr hrep
  length_members {n} := by
    rw [members_joined h ht]
    split
    · intro hone
      obtain ⟨x, hx⟩ := List.length_eq_one_iff.mp hone
      obtain ⟨m, hm, hne, hmc⟩ := exists_other h htwo x
      have := h.mem_allMembers.mpr ⟨hm, hmc⟩
      rw [hx, List.mem_singleton] at this
      exact hne this
    · split
      · exact Nat.zero_ne_one
      · exact hg.length_members
  members_of_ne {n} hn := by
    rw [ne_eq, leads_joined_iff h ht, not_or] at hn
    rw [members_joined h ht, if_neg hn.1]
    split
    · rfl
    · rename_i hnc
      exact hg.members_of_ne fun e => hn.2 ⟨hnc, e⟩
  fused_iff {n} hn := by
    rw [contains_joined] at hn
    simp only [contains_joined]
    rw [fused_joined h]
    by_cases hc : g.representative n ∈ cycle
    · rw [representative_joined h (n := n), if_pos hc]
      obtain ⟨m, hm, hne, hmc⟩ := exists_other h htwo n
      refine ⟨fun _ => ⟨m, hm, hne, ?_⟩, fun _ => .inr ⟨hn, hc⟩⟩
      rw [representative_joined h, if_pos hmc]
    · rw [representative_joined h (n := n), if_neg hc]
      simp only [representative_joined_eq_iff h ht hc]
      rw [← hg.fused_iff hn]
      exact ⟨fun h' => h'.resolve_right fun h'' => hc h''.2, .inl⟩
  unfiltered {n} hn := by
    rw [filter?_joined]
    rcases (fused_joined h).mp hn with hn | ⟨_, hc⟩
    · exact hg.unfiltered hn
    · rw [← hg.filter?_rep]
      exact (isFusable_iff.mp (h.isFusable _ hc)).2
  stored_of_ne {n} hn := by
    rw [ne_eq, leads_joined_iff h ht, not_or] at hn
    rw [stored_joined h ht, if_neg hn.1]
    split
    · rfl
    · rename_i hnc
      exact hg.stored_of_ne fun e => hn.2 ⟨hnc, e⟩
  contains_successor {n m} hm := by
    rw [successors_joined] at hm
    rw [contains_joined]
    exact hg.contains_successor hm
  nodup_successors {n} := by
    rw [successors_joined]
    exact hg.nodup_successors
  linked_iff {n m} := by
    rw [linked_joined, successors_joined]
    exact hg.linked_iff

end Joined

/-! ## 4. The agenda after fusing -/

theorem waits_reroute {a : Agenda τ} {item : WorkItem} :
    (reroute g target a r).Waits item t ↔ (a.Waits item t ∧ item ≠ .send r) ∨
      (item = .send (g.representative target) ∧ t ∉ g.tokens target ∧ a.Waits (.send r) t) := by
  have hdelta := Agenda.withdraw_fst a (.send r)
  have hwaits := fun item t => @Agenda.waits_withdraw τ _ a (.send r) item t
  unfold reroute
  cases hw : a.withdraw (.send r) with
  | mk delta a' =>
    rw [hw] at hdelta hwaits
    dsimp only at hdelta hwaits
    cases delta with
    | none =>
      -- nothing waits for `r`, and nothing is moved
      have hnone : ¬ a.Waits (.send r) t := fun ⟨d, hd, _⟩ => by rw [← hdelta] at hd; cases hd
      show a'.Waits item t ↔ _
      rw [hwaits]
      exact ⟨fun h => .inl ⟨h.2, h.1⟩, fun h => h.elim (fun h => ⟨h.2, h.1⟩)
        fun h => absurd h.2.2 hnone⟩
    | some waiting =>
      have hmem : a.Waits (.send r) t ↔ t ∈ waiting :=
        ⟨fun ⟨d, hd, htd⟩ => by rw [← hdelta] at hd; cases hd; exact htd,
          fun ht => ⟨waiting, hdelta.symm, ht⟩⟩
      show (g.offer a' target waiting).2.Waits item t ↔ _
      rw [waits_offer, hwaits, hmem]
      refine or_congr and_comm ?_
      exact and_congr_right fun _ => and_comm

/-- **What waited for the parts waits for the whole**, less what the whole has. -/
theorem waits_foldl_reroute (hrep : g.representative target = target) (reps : List NodeId)
    (a : Agenda τ) (item : WorkItem) :
    (reps.foldl (reroute g target) a).Waits item t ↔
      (a.Waits item t ∧ ∀ r ∈ reps, item ≠ .send r) ∨
        (item = .send target ∧ t ∉ g.tokens target ∧ ∃ r ∈ reps, a.Waits (.send r) t) := by
  induction reps generalizing a item with
  | nil => simp
  | cons r reps ih =>
    rw [List.foldl_cons, ih]
    simp only [waits_reroute, hrep, List.mem_cons, forall_eq_or_imp, exists_eq_or_imp]
    constructor
    · rintro (⟨h, hne⟩ | ⟨e, ht, r', hr', h⟩)
      · rcases h with ⟨h, hner⟩ | ⟨e, ht, h⟩
        · exact .inl ⟨h, hner, hne⟩
        · exact .inr ⟨e, ht, .inl h⟩
      · rcases h with ⟨h, _⟩ | ⟨_, _, h⟩
        · exact .inr ⟨e, ht, .inr ⟨r', hr', h⟩⟩
        · exact .inr ⟨e, ht, .inl h⟩
    · -- what waited for `r` is moved to `target`, which may itself be among the rest
      have hmoved : item = .send target → t ∉ g.tokens target → a.Waits (.send r) t →
          (((a.Waits item t ∧ item ≠ .send r) ∨
            (item = .send target ∧ t ∉ g.tokens target ∧ a.Waits (.send r) t)) ∧
              ∀ r' ∈ reps, item ≠ .send r') ∨
          (item = .send target ∧ t ∉ g.tokens target ∧ ∃ r' ∈ reps,
            (a.Waits (.send r') t ∧ WorkItem.send r' ≠ .send r) ∨
              (WorkItem.send r' = .send target ∧ t ∉ g.tokens target ∧ a.Waits (.send r) t)) := by
        intro e ht h
        by_cases hmem : target ∈ reps
        · exact .inr ⟨e, ht, target, hmem, .inr ⟨rfl, ht, h⟩⟩
        · refine .inl ⟨.inr ⟨e, ht, h⟩, fun r' hr' e' => hmem ?_⟩
          rw [e] at e'
          cases e'
          exact hr'
      rintro (⟨h, hner, hne⟩ | ⟨e, ht, h | ⟨r', hr', h⟩⟩)
      · exact .inl ⟨.inl ⟨h, hner⟩, hne⟩
      · exact hmoved e ht h
      · by_cases hr : r' = r
        · exact hmoved e ht (hr ▸ h)
        · refine .inr ⟨e, ht, r', hr', .inl ⟨h, fun e' => hr ?_⟩⟩
          cases e'
          rfl

theorem lasting_reroute {P : Agenda τ → Prop} (hP : Agenda.Lasting P) {a : Agenda τ} (h : P a) :
    P (reroute g target a r) := by
  have hwithdrawn := hP.withdraw r h
  unfold reroute
  cases hw : a.withdraw (.send r) with
  | mk delta a' =>
    rw [hw] at hwithdrawn
    cases delta with
    | none => exact hwithdrawn
    | some waiting => exact growing_offer hP.toGrowing hwithdrawn

theorem waits_catchUp {a : Agenda τ} {all : TokenSet τ} {p : Part τ} {item : WorkItem} :
    (catchUp g all a p).Waits item t ↔ a.Waits item t ∨
      ((t ∈ all ∧ t ∉ p.tokens) ∧ ∃ m ∈ p.members, g.PassesTo m item t) := by
  unfold catchUp
  dsimp only
  by_cases he : (all \ p.tokens).isEmpty
  · rw [if_pos he]
    have := SortedSet.isEmpty_eq_true.mp he t
    rw [SortedSet.mem_diff] at this
    exact ⟨.inl, fun h => h.elim id fun h => absurd h.1 this⟩
  · rw [if_neg he, waits_foldl_forward, SortedSet.mem_diff]

theorem growing_catchUp {P : Agenda τ → Prop} (hP : Agenda.Growing P) {a : Agenda τ}
    {all : TokenSet τ} {p : Part τ} (h : P a) : P (catchUp g all a p) := by
  unfold catchUp
  dsimp only
  split
  · exact h
  · exact growing_foldl_forward hP _ h

/-! ## 5. The flow after fusing -/

/-- The smallest of some handles. -/
def least : List NodeId → NodeId
  | [] => default
  | r :: rs => rs.foldl NodeId.min r

theorem least_mem {c : List NodeId} (hne : c ≠ []) : least c ∈ c := by
  have hfold : ∀ (rs : List NodeId) (r : NodeId), rs.foldl NodeId.min r ∈ r :: rs := by
    intro rs
    induction rs with
    | nil => exact fun r => List.mem_cons_self
    | cons x rs ih =>
      intro r
      rw [List.foldl_cons]
      rcases List.mem_cons.mp (ih (NodeId.min r x)) with h | h
      · rw [h]
        unfold NodeId.min
        split
        · exact List.mem_cons_of_mem _ List.mem_cons_self
        · exact List.mem_cons_self
      · exact List.mem_cons_of_mem _ (List.mem_cons_of_mem _ h)
  cases c with
  | nil => exact absurd rfl hne
  | cons r rs => exact hfold rs r

theorem least_le {c : List NodeId} (hr : r ∈ c) : (least c).index ≤ r.index := by
  have hmin : ∀ a b : NodeId, (a.min b).index ≤ a.index ∧ (a.min b).index ≤ b.index := by
    intro a b
    unfold NodeId.min
    by_cases hba : b < a
    · rw [if_pos hba]
      exact ⟨Nat.le_of_lt hba, Nat.le_refl _⟩
    · rw [if_neg hba]
      exact ⟨Nat.le_refl _, Nat.le_of_not_lt hba⟩
  have hfold : ∀ (rs : List NodeId) (x y : NodeId), y ∈ x :: rs →
      (rs.foldl NodeId.min x).index ≤ y.index := by
    intro rs
    induction rs with
    | nil =>
      intro x y hy
      rw [List.mem_singleton.mp hy]
      exact Nat.le_refl _
    | cons z rs ih =>
      intro x y hy
      rw [List.foldl_cons]
      have hle := ih (x.min z) (x.min z) List.mem_cons_self
      rcases List.mem_cons.mp hy with rfl | hy
      · exact Nat.le_trans hle (hmin y z).1
      · rcases List.mem_cons.mp hy with rfl | hy
        · exact Nat.le_trans hle (hmin x y).2
        · exact ih (x.min z) y (List.mem_cons_of_mem _ hy)
  cases c with
  | nil => exact absurd hr List.not_mem_nil
  | cons x rs => exact hfold rs x r hr

variable {f : Flow φ τ}

theorem fuse_of_length_le (h : cycle.length ≤ 1) : f.fuse cycle = f := by
  match cycle, h with
  | [], _ => rfl
  | [_], _ => rfl

theorem fuse_eq (htwo : 2 ≤ cycle.length) : f.fuse cycle =
    { graph := joined f.graph cycle (least cycle) (partsOf f.graph cycle)
      agenda := (partsOf f.graph cycle).foldl
        (catchUp (joined f.graph cycle (least cycle) (partsOf f.graph cycle))
          (allTokens f.graph cycle))
        (cycle.foldl (reroute (joined f.graph cycle (least cycle) (partsOf f.graph cycle))
          (least cycle)) f.agenda) } := by
  match cycle, htwo with
  | _ :: _ :: _, _ => rfl

theorem graph_fuse (htwo : 2 ≤ cycle.length) :
    (f.fuse cycle).graph = joined f.graph cycle (least cycle) (partsOf f.graph cycle) := by
  rw [fuse_eq htwo]

theorem length_lt_or_two_le (cycle : List NodeId) : cycle.length ≤ 1 ∨ 2 ≤ cycle.length := by
  omega

theorem least_mem_of_two_le (htwo : 2 ≤ cycle.length) : least cycle ∈ cycle :=
  least_mem fun e => by rw [e] at htwo; exact absurd htwo (by decide)

@[simp] theorem contains_fuse : (f.fuse cycle).graph.contains n = f.graph.contains n := by
  rcases length_lt_or_two_le cycle with hle | htwo
  · rw [fuse_of_length_le hle]
  · rw [graph_fuse htwo, contains_joined]

@[simp] theorem successors_fuse : (f.fuse cycle).graph.successors n = f.graph.successors n := by
  rcases length_lt_or_two_le cycle with hle | htwo
  · rw [fuse_of_length_le hle]
  · rw [graph_fuse htwo, successors_joined]

@[simp] theorem listeners_fuse : (f.fuse cycle).graph.listeners n = f.graph.listeners n := by
  rcases length_lt_or_two_le cycle with hle | htwo
  · rw [fuse_of_length_le hle]
  · rw [graph_fuse htwo, listeners_joined]

@[simp] theorem filter?_fuse : (f.fuse cycle).graph.filter? n = f.graph.filter? n := by
  rcases length_lt_or_two_le cycle with hle | htwo
  · rw [fuse_of_length_le hle]
  · rw [graph_fuse htwo, filter?_joined]

@[simp] theorem mark_fuse : (f.fuse cycle).graph.mark n = f.graph.mark n := by
  rcases length_lt_or_two_le cycle with hle | htwo
  · rw [fuse_of_length_le hle]
  · rw [graph_fuse htwo, mark_joined]

section Fuse

variable (h : Fusable f.graph cycle)
include h

theorem representative_fuse : (f.fuse cycle).graph.representative n =
    if f.graph.representative n ∈ cycle then least cycle else f.graph.representative n := by
  rcases length_lt_or_two_le cycle with hle | htwo
  · rw [fuse_of_length_le hle]
    match cycle, hle with
    | [], _ => rfl
    | [r], _ =>
      by_cases hr : f.graph.representative n ∈ [r]
      · rw [if_pos hr]
        exact List.mem_singleton.mp hr
      · rw [if_neg hr]
  · rw [graph_fuse htwo, representative_joined h]

theorem mem_tokens_fuse : t ∈ (f.fuse cycle).graph.tokens n ↔
    if f.graph.representative n ∈ cycle then ∃ r ∈ cycle, t ∈ f.graph.tokens r
      else t ∈ f.graph.tokens n := by
  rcases length_lt_or_two_le cycle with hle | htwo
  · rw [fuse_of_length_le hle]
    by_cases hr : f.graph.representative n ∈ cycle
    · rw [if_pos hr, ← h.grouped.tokens_rep]
      refine ⟨fun ht => ⟨_, hr, ht⟩, fun ⟨r, hr', ht⟩ => ?_⟩
      -- a cycle of one has no other representative
      have e : r = f.graph.representative n := by
        match cycle, hle, hr, hr' with
        | [x], _, hr, hr' => rw [List.mem_singleton.mp hr, List.mem_singleton.mp hr']
      exact e ▸ ht
    · rw [if_neg hr]
  · rw [graph_fuse htwo, mem_tokens_joined h (least_mem_of_two_le htwo), h.mem_allTokens]

/-- **Fusing takes no token from a node.** -/
theorem Fusable.subset_tokens_fuse (ht : t ∈ f.graph.tokens n) :
    t ∈ (f.fuse cycle).graph.tokens n := by
  rw [mem_tokens_fuse h]
  by_cases hn : f.graph.representative n ∈ cycle
  · rw [if_pos hn]
    exact ⟨_, hn, h.grouped.tokens_rep.symm ▸ ht⟩
  · rw [if_neg hn]
    exact ht

theorem grouped_fuse : (f.fuse cycle).graph.Grouped := by
  rcases length_lt_or_two_le cycle with hle | htwo
  · rw [fuse_of_length_le hle]
    exact h.grouped
  · rw [graph_fuse htwo]
    exact grouped_joined h (least_mem_of_two_le htwo)

theorem wellFormed_fuse (hg : f.graph.WellFormed) : (f.fuse cycle).graph.WellFormed := by
  rcases length_lt_or_two_le cycle with hle | htwo
  · rw [fuse_of_length_le hle]
    exact hg
  · rw [graph_fuse htwo]
    exact wellFormed_joined h (least_mem_of_two_le htwo) hg htwo fun r hr => least_le hr

/-- **What waits after fusing**: what waited before, with the parts replaced by the whole, and the
tokens that nodes of the cycle pass on because they are new to them. -/
theorem waits_fuse (htwo : 2 ≤ cycle.length) {item : WorkItem} :
    (f.fuse cycle).agenda.Waits item t ↔
      (f.agenda.Waits item t ∧ ∀ r ∈ cycle, item ≠ .send r) ∨
      (item = .send (least cycle) ∧ (∀ r ∈ cycle, t ∉ f.graph.tokens r) ∧
        ∃ r ∈ cycle, f.agenda.Waits (.send r) t) ∨
      ((∃ r ∈ cycle, t ∈ f.graph.tokens r) ∧ ∃ m, f.graph.contains m ∧
        f.graph.representative m ∈ cycle ∧ t ∉ f.graph.tokens m ∧
        (f.fuse cycle).graph.PassesTo m item t) := by
  have hmem := least_mem_of_two_le htwo
  have htarget : t ∉ (joined f.graph cycle (least cycle) (partsOf f.graph cycle)).tokens
      (least cycle) ↔ ∀ r ∈ cycle, t ∉ f.graph.tokens r := by
    rw [mem_tokens_joined h hmem, h.rep hmem, if_pos hmem, h.mem_allTokens]
    simp
  rw [graph_fuse htwo, fuse_eq htwo]
  dsimp only
  rw [Agenda.waits_foldl fun a p _ _ => waits_catchUp (a := a) (p := p),
    waits_foldl_reroute (representative_joined_target h hmem), htarget, or_assoc]
  refine or_congr_right (or_congr_right ?_)
  constructor
  · rintro ⟨p, hp, ⟨ht, hnp⟩, m, hm, hpass⟩
    obtain ⟨r, hr, rfl⟩ := List.mem_map.mp hp
    obtain ⟨hc, e⟩ := (h.grouped.mem_component (h.contains r hr) (h.rep hr)).mp hm
    refine ⟨h.mem_allTokens.mp ht, m, hc, e ▸ hr, ?_, hpass⟩
    unfold tokens
    rw [e]
    exact hnp
  · rintro ⟨ht, m, hc, hr, hnm, hpass⟩
    exact ⟨⟨f.graph.component _, f.graph.stored _⟩, List.mem_map.mpr ⟨_, hr, rfl⟩,
      ⟨h.mem_allTokens.mpr ht, hnm⟩, m, h.grouped.mem_component_rep hc, hpass⟩

/-- Representatives outside the cycle can be fused afterwards as before. -/
theorem Fusable.fuse_of_disjoint {other : List NodeId} (ho : Fusable f.graph other)
    (hd : ∀ r ∈ other, r ∉ cycle) : Fusable (f.fuse cycle).graph other where
  grouped := grouped_fuse h
  nodup := ho.nodup
  contains r hr := by
    rw [contains_fuse]
    exact ho.contains r hr
  isFusable r hr := by
    have hr' := isFusable_iff.mp (ho.isFusable r hr)
    rw [isFusable_iff, representative_fuse h, hr'.1, if_neg (hd r hr), filter?_fuse]
    exact ⟨rfl, hr'.2⟩

end Fuse

theorem lasting_fuse {P : Agenda τ → Prop} (hP : Agenda.Lasting P) (h : P f.agenda) :
    P (f.fuse cycle).agenda := by
  rcases length_lt_or_two_le cycle with hle | htwo
  · rw [fuse_of_length_le hle]
    exact h
  · rw [fuse_eq htwo]
    refine List.foldlRecOn _ _ ?_ fun a ha p _ => growing_catchUp hP.toGrowing ha
    exact List.foldlRecOn _ _ h fun a ha r _ => lasting_reroute hP ha

end Flow

end ValueFlow
