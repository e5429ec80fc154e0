import Mathlib.Algebra.BigOperators.Group.Finset.Basic
import Mathlib.Algebra.GroupWithZero.Nat
import Mathlib.Data.Finset.Lattice.Fold
import Mathlib.Order.Lattice.Nat
import ValueFlow.Flow.Condense
import ValueFlow.Proofs.Flow.Fuse
import ValueFlow.Proofs.Graph.Survey

/-!
# What condensing does

A pass fuses exactly the cycles that are reached from its roots. `representative_foldl_fuse` follows
the leaders of all nodes through a list of disjoint cycles, and `Survey.run_found` says which cycles
these are. Everything else that a pass keeps goes through `condense_induction`. The numbers that are
reported are compared with sets that are defined without any search: `Graph.reachedSet` and
`Graph.cycleSets`.
-/

namespace ValueFlow

open ValueFlow.Flow

variable {φ τ : Type} [Ordered τ]

/-! ## 1. Fusing disjoint cycles -/

namespace Flow

theorem representative_foldl_fuse (cycles : List (List NodeId)) (f : Flow φ τ)
    (hfus : ∀ c ∈ cycles, Fusable f.graph c)
    (hdis : cycles.Pairwise fun c c' => ∀ r ∈ c, r ∉ c') :
    (∀ c ∈ cycles, ∀ n, f.graph.representative n ∈ c →
        (cycles.foldl fuse f).graph.representative n = least c) ∧
      ∀ n, (∀ c ∈ cycles, f.graph.representative n ∉ c) →
        (cycles.foldl fuse f).graph.representative n = f.graph.representative n := by
  induction cycles generalizing f with
  | nil => exact ⟨nofun, fun _ _ => rfl⟩
  | cons c cycles ih =>
    have hc := hfus c List.mem_cons_self
    obtain ⟨hdc, hdis⟩ := List.pairwise_cons.mp hdis
    have hother : ∀ c' ∈ cycles, Fusable (f.fuse c).graph c' := fun c' hc' =>
      hc.fuse_of_disjoint (hfus c' (List.mem_cons_of_mem _ hc'))
        fun r hr hrc => hdc c' hc' r hrc hr
    obtain ⟨hin, hout⟩ := ih (f.fuse c) hother hdis
    rw [List.foldl_cons]
    refine ⟨fun c' hc' n hn => ?_, fun n hn => ?_⟩
    · have hrep := representative_fuse hc (n := n)
      rcases List.mem_cons.mp hc' with rfl | hc'
      · -- a node of the first cycle now has its leader, which no later cycle moves
        rw [if_pos hn] at hrep
        have hlead : least c' ∈ c' := least_mem fun e => by rw [e] at hn; exact List.not_mem_nil hn
        rw [hout n fun d hd => by rw [hrep]; exact hdc d hd _ hlead, hrep]
      · rw [if_neg fun hnc => hdc c' hc' _ hnc hn] at hrep
        exact hin c' hc' n (by rw [hrep]; exact hn)
    · have hrep := representative_fuse hc (n := n)
      rw [if_neg (hn c List.mem_cons_self)] at hrep
      rw [hout n fun d hd => by rw [hrep]; exact hn d (List.mem_cons_of_mem _ hd), hrep]

end Flow

/-! ## 2. The cycles of a survey -/

namespace Survey

variable {g : Graph φ τ} {roots : List NodeId} {s : Survey φ τ} (hs : Found g roots s)
include hs

theorem Found.reached {c : List NodeId} (hc : c ∈ s.cycles) {r : NodeId} (hr : r ∈ c) :
    g.Reached roots r :=
  (hs.mem_cycles r).mp (List.mem_flatten.mpr ⟨c, hc, hr⟩)

theorem Found.nodup_cycle {c : List NodeId} (hc : c ∈ s.cycles) : c.Nodup :=
  (List.nodup_flatten.mp hs.nodup).1 c hc

theorem Found.disjoint : s.cycles.Pairwise fun c c' => ∀ r ∈ c, r ∉ c' :=
  (List.nodup_flatten.mp hs.nodup).2.imp fun h _ hr hr' => h hr hr'

theorem Found.fusable (hg : g.Grouped) {c : List NodeId} (hc : c ∈ s.cycles) :
    Fusable s.graph c where
  grouped := Graph.Grouped.of_unmarked hs.unmarked hg
  nodup := hs.nodup_cycle hc
  contains r hr := by
    rw [Graph.contains_of_unmarked hs.unmarked]
    exact (hs.reached hc hr).contains hg
  isFusable r hr := by
    rw [Graph.isFusable_of_unmarked hs.unmarked]
    exact (hs.reached hc hr).isFusable

end Survey

/-! ## 3. Counting -/

namespace Graph

open Classical in
/-- The components that are reached from the roots. -/
noncomputable def reachedSet (g : Graph φ τ) (roots : List NodeId) : Finset NodeId :=
  g.ids.toFinset.filter (g.Reached roots)

open Classical in
/-- The components on a common cycle with `r`, and `r` itself. -/
noncomputable def cycleSet (g : Graph φ τ) (r : NodeId) : Finset NodeId :=
  g.ids.toFinset.filter (g.Mutual r)

/-- The cycles that are reached from the roots. -/
noncomputable def cycleSets (g : Graph φ τ) (roots : List NodeId) : Finset (Finset NodeId) :=
  (g.reachedSet roots).image g.cycleSet

/-- **The true numbers of a pass.** -/
noncomputable def condenseCounts (g : Graph φ τ) (roots : List NodeId) : CondenseReport :=
  let proper := (g.cycleSets roots).filter fun c => 2 ≤ c.card
  { visited := (g.reachedSet roots).card
    cycles := (g.cycleSets roots).card
    fusedCycles := proper.card
    absorbed := ∑ c ∈ proper, (c.card - 1)
    largest := (g.cycleSets roots).sup Finset.card }

theorem mem_reachedSet {g : Graph φ τ} (hg : g.WellFormed) {roots : List NodeId} {n : NodeId} :
    n ∈ g.reachedSet roots ↔ g.Reached roots n := by
  simp only [reachedSet, Finset.mem_filter, List.mem_toFinset, mem_ids]
  exact ⟨fun h => h.2, fun h => ⟨(h.contains_isFusable hg).1, h⟩⟩

theorem mem_cycleSet {g : Graph φ τ} {r n : NodeId} :
    n ∈ g.cycleSet r ↔ g.contains n ∧ g.Mutual r n := by
  simp only [cycleSet, Finset.mem_filter, List.mem_toFinset, mem_ids]

end Graph

theorem foldl_max_le_iff {xs : List Nat} {b k : Nat} :
    xs.foldl max b ≤ k ↔ b ≤ k ∧ ∀ x ∈ xs, x ≤ k := by
  induction xs generalizing b with
  | nil => simp
  | cons x xs ih =>
    rw [List.foldl_cons, ih, List.forall_mem_cons, Nat.max_le, and_assoc]

namespace Survey

variable {g : Graph φ τ} {roots : List NodeId} {s : Survey φ τ} (hs : Found g roots s)
include hs

theorem Found.reachedSet_eq (hg : g.WellFormed) :
    g.reachedSet roots = s.cycles.flatten.toFinset := by
  ext n
  rw [Graph.mem_reachedSet hg, List.mem_toFinset, hs.mem_cycles]

theorem Found.cycleSet_eq (hg : g.WellFormed) {c : List NodeId} (hc : c ∈ s.cycles) {r : NodeId}
    (hr : r ∈ c) : g.cycleSet r = c.toFinset := by
  ext n
  rw [Graph.mem_cycleSet, List.mem_toFinset, ← (hs.cycle c hc).2 r hr]
  exact ⟨fun h => h.2, fun h => ⟨((hs.reached hc h).contains_isFusable hg).1, h⟩⟩

theorem Found.cycleSets_eq (hg : g.WellFormed) :
    g.cycleSets roots = (s.cycles.map List.toFinset).toFinset := by
  ext d
  unfold Graph.cycleSets
  rw [hs.reachedSet_eq hg, Finset.mem_image, List.mem_toFinset, List.mem_map]
  constructor
  · rintro ⟨r, hr, rfl⟩
    obtain ⟨c, hc, hrc⟩ := List.mem_flatten.mp (List.mem_toFinset.mp hr)
    exact ⟨c, hc, (hs.cycleSet_eq hg hc hrc).symm⟩
  · rintro ⟨c, hc, rfl⟩
    obtain ⟨r, hr⟩ := List.exists_mem_of_ne_nil c (hs.cycle c hc).1
    refine ⟨r, List.mem_toFinset.mpr (List.mem_flatten.mpr ⟨c, hc, hr⟩), ?_⟩
    exact hs.cycleSet_eq hg hc hr

/-- Different cycles are different as sets, too. -/
theorem Found.nodup_cycleSets : (s.cycles.map List.toFinset).Nodup := by
  refine List.pairwise_map.mpr (List.Pairwise.imp_of_mem ?_ hs.disjoint)
  intro c c' hc _ hdis e
  obtain ⟨r, hr⟩ := List.exists_mem_of_ne_nil c (hs.cycle c hc).1
  refine hdis r hr ?_
  rw [← List.mem_toFinset, ← e, List.mem_toFinset]
  exact hr

/-- **The reported numbers are the true ones.** -/
theorem Found.reportOf_eq (hg : g.WellFormed) : reportOf s = g.condenseCounts roots := by
  have hcard : ∀ c ∈ s.cycles, c.toFinset.card = c.length := fun c hc =>
    List.toFinset_card_of_nodup (hs.nodup_cycle hc)
  have hproper : (g.cycleSets roots).filter (fun c => 2 ≤ c.card) =
      ((s.cycles.filter fun c => 2 ≤ c.length).map List.toFinset).toFinset := by
    ext d
    rw [hs.cycleSets_eq hg, Finset.mem_filter]
    simp only [List.mem_toFinset, List.mem_map, List.mem_filter, decide_eq_true_eq]
    constructor
    · rintro ⟨⟨c, hc, rfl⟩, hd⟩
      exact ⟨c, ⟨hc, hcard c hc ▸ hd⟩, rfl⟩
    · rintro ⟨c, ⟨hc, hd⟩, rfl⟩
      exact ⟨⟨c, hc, rfl⟩, (hcard c hc).symm ▸ hd⟩
  have hnodup : ((s.cycles.filter fun c => 2 ≤ c.length).map List.toFinset).Nodup :=
    hs.nodup_cycleSets.sublist (List.filter_sublist.map _)
  have hlargest : (s.cycles.map List.length).foldl max 0 =
      (g.cycleSets roots).sup Finset.card := by
    refine eq_of_forall_ge_iff fun k => ?_
    rw [foldl_max_le_iff, Finset.sup_le_iff, hs.cycleSets_eq hg]
    simp only [List.mem_toFinset, List.mem_map, forall_exists_index, and_imp,
      forall_apply_eq_imp_iff₂, Nat.zero_le, true_and]
    exact forall₂_congr fun c hc => by rw [hcard c hc]
  unfold reportOf Graph.condenseCounts
  dsimp only
  rw [hproper, List.toFinset_card_of_nodup hnodup, List.sum_toFinset _ hnodup, hlargest,
    hs.reachedSet_eq hg, List.toFinset_card_of_nodup hs.nodup, hs.visited, hs.cycleSets_eq hg,
    List.toFinset_card_of_nodup hs.nodup_cycleSets, List.length_map, List.length_map,
    List.map_map]
  congr 1
  refine congrArg (List.foldr _ 0) (List.map_congr_left fun c hc => ?_)
  rw [Function.comp_apply, hcard c (List.mem_of_mem_filter hc)]

end Survey

/-! ## 4. A pass -/

namespace Flow

/-- **Induction along a pass**: what holds after the survey and is kept whenever components that
the roots reach are fused holds after the pass. -/
theorem condense_induction_reached {f : Flow φ τ} (hg : f.graph.Grouped) (roots : List NodeId)
    {P : Flow φ τ → Prop}
    (hstart : ∀ g : Graph φ τ, g.unmarked = f.graph.unmarked → P { f with graph := g })
    (hfuse : ∀ (f' : Flow φ τ) (c : List NodeId), Fusable f'.graph c →
      (∀ r ∈ c, f.graph.Reached roots r) → P f' → P (f'.fuse c)) :
    P (f.condense roots).2 := by
  have hfold : ∀ (cycles : List (List NodeId)) (f' : Flow φ τ),
      (∀ c ∈ cycles, Fusable f'.graph c ∧ ∀ r ∈ c, f.graph.Reached roots r) →
      (cycles.Pairwise fun c c' => ∀ r ∈ c, r ∉ c') → P f' → P (cycles.foldl fuse f') := by
    intro cycles
    induction cycles with
    | nil => exact fun f' _ _ h => h
    | cons c cycles ih =>
      intro f' hfus hdis h
      obtain ⟨hc, hreached⟩ := hfus c List.mem_cons_self
      obtain ⟨hdc, hdis⟩ := List.pairwise_cons.mp hdis
      refine ih (f'.fuse c) (fun c' hc' => ?_) hdis (hfuse f' c hc hreached h)
      obtain ⟨hfus', hreached'⟩ := hfus c' (List.mem_cons_of_mem _ hc')
      exact ⟨hc.fuse_of_disjoint hfus' fun r hr hrc => hdc c' hc' r hrc hr, hreached'⟩
  have hs := Survey.run_found hg roots
  exact hfold _ _ (fun c hc => ⟨hs.fusable hg hc, fun r hr => hs.reached hc hr⟩) hs.disjoint
    (hstart _ hs.unmarked)

theorem condense_induction {f : Flow φ τ} (hg : f.graph.Grouped) (roots : List NodeId)
    {P : Flow φ τ → Prop}
    (hstart : ∀ g : Graph φ τ, g.unmarked = f.graph.unmarked → P { f with graph := g })
    (hfuse : ∀ (f' : Flow φ τ) (c : List NodeId), Fusable f'.graph c → P f' → P (f'.fuse c)) :
    P (f.condense roots).2 :=
  condense_induction_reached hg roots hstart fun f' c hc _ => hfuse f' c hc

section Grouped

variable {f : Flow φ τ} (hg : f.graph.Grouped) (roots : List NodeId)
include hg

theorem grouped_condense : (f.condense roots).2.graph.Grouped := by
  refine condense_induction (P := fun f => f.graph.Grouped) hg roots (fun g hu => ?_) ?_
  · exact Graph.Grouped.of_unmarked hu hg
  · exact fun f' c hc _ => grouped_fuse hc

theorem lasting_condense {P : Agenda τ → Prop} (hP : Agenda.Lasting P) (h : P f.agenda) :
    P (f.condense roots).2.agenda :=
  condense_induction (P := fun f => P f.agenda) hg roots (fun _ _ => h)
    fun _ _ _ h' => lasting_fuse hP h'

end Grouped

section Pass

variable {f : Flow φ τ} (hg : f.graph.WellFormed) (roots : List NodeId)
include hg

theorem wellFormed_condense : (f.condense roots).2.graph.WellFormed := by
  refine condense_induction (P := fun f => f.graph.WellFormed) hg.grouped roots (fun g hu => ?_) ?_
  · exact Graph.WellFormed.of_unmarked hu hg
  · exact fun f' c hc hf' => wellFormed_fuse hc hf'

theorem contains_condense (n : NodeId) :
    (f.condense roots).2.graph.contains n = f.graph.contains n := by
  refine condense_induction (P := fun f' => f'.graph.contains n = f.graph.contains n) hg.grouped
    roots (fun g hu => ?_) ?_
  · exact Graph.contains_of_unmarked hu
  · exact fun f' c _ h => contains_fuse.trans h

theorem successors_condense (n : NodeId) :
    (f.condense roots).2.graph.successors n = f.graph.successors n := by
  refine condense_induction (P := fun f' => f'.graph.successors n = f.graph.successors n) hg.grouped
    roots (fun g hu => ?_) ?_
  · exact Graph.successors_of_unmarked hu
  · exact fun f' c _ h => successors_fuse.trans h

theorem filter?_condense (n : NodeId) :
    (f.condense roots).2.graph.filter? n = f.graph.filter? n := by
  refine condense_induction (P := fun f' => f'.graph.filter? n = f.graph.filter? n) hg.grouped
    roots (fun g hu => ?_) ?_
  · exact Graph.filter?_of_unmarked hu
  · exact fun f' c _ h => filter?_fuse.trans h

/-- A component that no root reaches keeps its leader. -/
theorem representative_condense_of_not_reached {n : NodeId}
    (hn : ¬ f.graph.Reached roots (f.graph.representative n)) :
    (f.condense roots).2.graph.representative n = f.graph.representative n := by
  have hs := Survey.run_spec hg roots
  have hrep := Graph.representative_of_unmarked hs.unmarked (n := n)
  refine ((representative_foldl_fuse _ _ (fun c hc => hs.fusable hg.grouped hc) hs.disjoint).2 n
    fun c hc hnc => ?_).trans hrep
  exact hn (hs.reached hc (hrep ▸ hnc))

/-- A component that is reached is led by a component of its cycle, the same for the whole cycle. -/
theorem representative_condense_of_reached {n : NodeId}
    (hn : f.graph.Reached roots (f.graph.representative n)) :
    f.graph.Mutual (f.graph.representative n) ((f.condense roots).2.graph.representative n) ∧
      ∀ m, f.graph.Mutual (f.graph.representative n) (f.graph.representative m) →
        (f.condense roots).2.graph.representative m =
          (f.condense roots).2.graph.representative n := by
  have hs := Survey.run_spec hg roots
  have hrep := fun n => Graph.representative_of_unmarked hs.unmarked (n := n)
  have hlead := (representative_foldl_fuse _ { f with graph := (Survey.run f.graph roots).graph }
    (fun c hc => hs.fusable hg.grouped hc) hs.disjoint).1
  obtain ⟨c, hc, hnc⟩ := List.mem_flatten.mp ((hs.mem_cycles _).mpr hn)
  obtain ⟨hne, hcycle⟩ := hs.cycle c hc
  have hleads : ∀ m, f.graph.representative m ∈ c →
      (f.condense roots).2.graph.representative m = least c := fun m hm =>
    hlead c hc m ((hrep m).symm ▸ hm)
  refine ⟨?_, fun m hm => ?_⟩
  · rw [hleads n hnc, ← hcycle _ hnc]
    exact least_mem hne
  · rw [hleads n hnc, hleads m ((hcycle _ hnc _).mpr hm)]

/-- Leaders are reached before the pass if those whom they lead are. -/
theorem reached_representative_condense {n : NodeId} :
    f.graph.Reached roots ((f.condense roots).2.graph.representative n) ↔
      f.graph.Reached roots (f.graph.representative n) := by
  by_cases hn : f.graph.Reached roots (f.graph.representative n)
  · have hlead := (representative_condense_of_reached hg roots hn).1
    refine iff_of_true ?_ hn
    obtain ⟨root, hr, hc, hf, hreach⟩ := hn
    exact ⟨root, hr, hc, hf, hreach.trans hlead.1⟩
  · rw [representative_condense_of_not_reached hg roots hn]

/-- Nodes have one leader after the pass if they had one before, or if they are on a cycle that is
reached. -/
theorem representative_condense_eq_iff {u v : NodeId} :
    (f.condense roots).2.graph.representative u = (f.condense roots).2.graph.representative v ↔
      f.graph.representative u = f.graph.representative v ∨
        f.graph.Reached roots (f.graph.representative u) ∧
          f.graph.Reached roots (f.graph.representative v) ∧
          f.graph.Mutual (f.graph.representative u) (f.graph.representative v) := by
  constructor
  · intro e
    by_cases hu : f.graph.Reached roots (f.graph.representative u)
    · have hv : f.graph.Reached roots (f.graph.representative v) := by
        rw [← reached_representative_condense hg, ← e, reached_representative_condense hg]
        exact hu
      have hlu := (representative_condense_of_reached hg roots hu).1
      have hlv := (representative_condense_of_reached hg roots hv).1
      exact .inr ⟨hu, hv, hlu.trans (e ▸ hlv.symm)⟩
    · have hv : ¬ f.graph.Reached roots (f.graph.representative v) := by
        rw [← reached_representative_condense hg, ← e, reached_representative_condense hg]
        exact hu
      rw [representative_condense_of_not_reached hg roots hu,
        representative_condense_of_not_reached hg roots hv] at e
      exact .inl e
  · intro h
    by_cases hu : f.graph.Reached roots (f.graph.representative u)
    · have huv : f.graph.Mutual (f.graph.representative u) (f.graph.representative v) := by
        rcases h with e | ⟨_, _, huv⟩
        · rw [e]
          exact .refl _
        · exact huv
      exact ((representative_condense_of_reached hg roots hu).2 v huv).symm
    · rcases h with e | ⟨hreached, _, _⟩
      · rw [representative_condense_of_not_reached hg roots hu,
          representative_condense_of_not_reached hg roots (e ▸ hu), e]
      · exact absurd hreached hu

end Pass

/-- **A pass fuses exactly the cycles that its roots reach**, puts the smallest node in front of
each, and reports the true numbers. -/
theorem condense_components (f : Flow φ τ) (hg : f.graph.WellFormed) (roots : List NodeId) :
    let g := f.graph
    let g' := (f.condense roots).2.graph
    (∀ u v, g'.representative u = g'.representative v ↔
      g.representative u = g.representative v ∨
        (g.isFusable (g.representative u) ∧ g.isFusable (g.representative v) ∧
          g.Reached roots (g.representative u) ∧ g.Reached roots (g.representative v) ∧
          g.Mutual (g.representative u) (g.representative v))) ∧
    (∀ n, g.contains n → g'.contains (g'.representative n) ∧
      g'.representative (g'.representative n) = g'.representative n ∧
      ∀ m, g'.representative m = g'.representative n → (g'.representative n).index ≤ m.index) ∧
    (f.condense roots).1 = g.condenseCounts roots := by
  intro g g'
  have hwf := wellFormed_condense hg roots
  refine ⟨fun u v => (representative_condense_eq_iff hg roots).trans (or_congr_right ?_),
    fun n hn => ⟨?_, hwf.rep_rep, fun m hm => ?_⟩, (Survey.run_spec hg roots).reportOf_eq hg⟩
  · -- only components that can be fused are reached
    refine ⟨fun ⟨hu, hv, huv⟩ => ?_, fun ⟨_, _, h⟩ => h⟩
    exact ⟨(hu.contains_isFusable hg).2, (hv.contains_isFusable hg).2, hu, hv, huv⟩
  · exact hwf.contains_rep ((contains_condense hg roots n).trans hn)
  · exact hm ▸ hwf.rep_le

/-- Three nodes in a circle, the last of them with a filter, and a link back from the second to the
first. -/
def filteredTriangle : Graph Unit Nat :=
  let addLink (g : Graph Unit Nat) (a b : Nat) :=
    g.modify ⟨a⟩ fun v => { v with links := v.links.insert ⟨b⟩ }
  let nodes := (((Graph.empty.addNode none).2.addNode none).2.addNode none).2
  let filtered := nodes.modify ⟨2⟩ fun v => { v with filter := some () }
  addLink (addLink (addLink (addLink filtered 0 1) 1 2) 2 0) 1 0

theorem wellFormed_filteredTriangle : filteredTriangle.WellFormed := by
  have hnodes := ((Graph.wellFormed_empty.addNode none).addNode none).addNode none
    (φ := Unit) (τ := Nat)
  have hfiltered := hnodes.setFilter (n := ⟨2⟩) (f := ()) (by decide)
  exact (((hfiltered.addLink (n := ⟨0⟩) (a := ⟨1⟩) (by decide) (by decide)).addLink
    (n := ⟨1⟩) (a := ⟨2⟩) (by decide) (by decide)).addLink (n := ⟨2⟩) (a := ⟨0⟩)
    (by decide) (by decide)).addLink (n := ⟨1⟩) (a := ⟨0⟩) (by decide) (by decide)

theorem condense_components_filteredTriangle :
    let f : Flow Unit Nat := ⟨filteredTriangle, .empty .fifo⟩
    f.graph.WellFormed ∧ f.graph.Mutual ⟨1⟩ ⟨0⟩ ∧
      f.graph.condenseCounts [⟨1⟩, ⟨9⟩, ⟨2⟩] = ⟨2, 1, 1, 1, 2⟩ := by
  intro f
  have hwf : f.graph.WellFormed := wellFormed_filteredTriangle
  obtain ⟨hsame, -, hcounts⟩ := condense_components f hwf [⟨1⟩, ⟨9⟩, ⟨2⟩]
  refine ⟨hwf, ?_, hcounts.symm.trans (by decide +kernel)⟩
  rcases (hsame ⟨1⟩ ⟨0⟩).mp (by decide +kernel) with e | ⟨_, _, _, _, h⟩
  · exact absurd e (by decide)
  · exact h

end Flow

end ValueFlow
