import ValueFlow.Proofs.Flow.Condense

/-!
# Condensing twice

A pass over a graph in which no cycle of several components can be reached finds nothing to fuse
(`condense_of_acyclic`). A pass leaves such a graph behind (`acyclic_condense`): seen through the
new representatives, every edge between reached components was a path before
(`reaches_of_mem_logicalSuccessors`), so a cycle that is left would have been a cycle before, and
been fused. Hence a second pass with the same roots changes nothing but marks.
-/

namespace ValueFlow

open Relation

variable {φ τ : Type} [Ordered τ]

namespace Graph

/-- **No cycle of several components is reached** from the roots. -/
def Acyclic (g : Graph φ τ) (roots : List NodeId) : Prop :=
  ∀ a b, g.Reached roots a → g.Mutual a b → a = b

theorem Reached.along {g : Graph φ τ} {roots : List NodeId} {a b : NodeId} (ha : g.Reached roots a)
    (hab : g.Reaches a b) : g.Reached roots b := by
  obtain ⟨root, hroot, hc, hf, hreach⟩ := ha
  exact ⟨root, hroot, hc, hf, ReflTransGen.trans hreach hab⟩

end Graph

namespace Flow

open ValueFlow.Graph

/-! ## 1. Passes that fuse nothing -/

section

variable {f : Flow φ τ} {roots : List NodeId} (hg : f.graph.Grouped)
include hg

/-- Whatever a survey groups is on one cycle, so without cycles it groups nothing. -/
theorem length_cycle_of_acyclic (hacyclic : f.graph.Acyclic roots) {c : List NodeId}
    (hc : c ∈ (Survey.run f.graph roots).cycles) : c.length ≤ 1 := by
  have hs := Survey.run_found hg roots
  match c, hc with
  | [], _ => exact Nat.zero_le 1
  | [_], _ => exact Nat.le_refl 1
  | a :: b :: rest, hc =>
    have ha : a ∈ a :: b :: rest := List.mem_cons_self
    have hmutual : f.graph.Mutual a b := ((hs.cycle _ hc).2 a ha b).mp (by simp)
    have hab : a = b := hacyclic a b (hs.reached hc ha) hmutual
    have hnodup := hs.nodup_cycle hc
    simp [hab] at hnodup

theorem condense_of_acyclic (hacyclic : f.graph.Acyclic roots) :
    (f.condense roots).1.fusedCycles = 0 ∧ (f.condense roots).1.absorbed = 0 ∧
      (f.condense roots).2 = { f with graph := (Survey.run f.graph roots).graph } := by
  have hlength := fun c => length_cycle_of_acyclic hg hacyclic (c := c)
  have hproper : ((Survey.run f.graph roots).cycles.filter fun c => 2 ≤ c.length) = [] := by
    rw [List.filter_eq_nil_iff]
    intro c hc
    have := hlength c hc
    rw [decide_eq_true_eq]
    omega
  refine ⟨?_, ?_, ?_⟩
  · show (List.filter _ _).length = 0
    rw [hproper]
    rfl
  · show ((List.filter _ _).map _).foldr _ 0 = 0
    rw [hproper]
    rfl
  · exact List.foldlRecOn (motive := (· = { f with graph := (Survey.run f.graph roots).graph })) _ _
      rfl fun f' hf' c hc => (fuse_of_length_le (hlength c hc)).trans hf'

end

/-! ## 2. What a pass leaves behind -/

section

variable {f : Flow φ τ} (hg : f.graph.WellFormed) {roots : List NodeId} {a b n : NodeId}
include hg

/-- What no pass reaches and could still be fused afterwards could be fused before. -/
theorem isFusable_of_not_reached (hn : ¬ f.graph.Reached roots (f.graph.representative n))
    (hfus : (f.condense roots).2.graph.isFusable ((f.condense roots).2.graph.representative n)) :
    f.graph.isFusable (f.graph.representative n) := by
  have hfilter := (isFusable_iff.mp hfus).2
  rw [representative_condense_of_not_reached hg roots hn, filter?_condense hg] at hfilter
  exact isFusable_iff.mpr ⟨hg.rep_rep, hfilter⟩

/-- **An edge that is seen after a pass was a path before it**, if it starts where the pass has
been: from the node in front of its source through the cycle, over one link, and on to the node in
front of its target. -/
theorem reaches_of_mem_logicalSuccessors (ha : f.graph.Reached roots a)
    (hlead : (f.condense roots).2.graph.representative a = a)
    (hb : b ∈ (f.condense roots).2.graph.logicalSuccessors a) :
    f.graph.Reaches a b ∧ (f.condense roots).2.graph.representative b = b := by
  have hgrouped := grouped_condense hg.grouped roots
  obtain ⟨m, hm, s, hs, hcs, rfl, hne, hfus⟩ := mem_logicalSuccessors.mp hb
  have hca : (f.condense roots).2.graph.contains a :=
    (contains_condense hg roots a).trans (ha.contains hg.grouped)
  obtain ⟨hcm, rfl⟩ := (hgrouped.mem_component hca hlead).mp hm
  rw [contains_condense hg] at hcm hcs
  rw [successors_condense hg] at hs
  have hrm : f.graph.Reached roots (f.graph.representative m) :=
    (reached_representative_condense hg roots).mp ha
  -- the link itself, seen before the pass
  have hedge : f.graph.isFusable (f.graph.representative s) →
      f.graph.Reaches (f.graph.representative m) (f.graph.representative s) := by
    intro hfs
    by_cases e : f.graph.representative s = f.graph.representative m
    · rw [e]
      exact ReflTransGen.refl
    · exact ReflTransGen.single (mem_logicalSuccessors.mpr
        ⟨m, hg.grouped.mem_component_rep hcm, s, hs, hcs, rfl, e, hfs⟩)
  have hrs : f.graph.Reached roots (f.graph.representative s) := by
    refine Classical.byContradiction fun hns => hns ?_
    exact hrm.along (hedge (isFusable_of_not_reached hg hns hfus))
  have hsource := (representative_condense_of_reached hg roots hrm).1
  have htarget := (representative_condense_of_reached hg roots hrs).1
  refine ⟨?_, (isFusable_iff.mp hfus).1⟩
  exact (hsource.2.trans (hedge hrs.isFusable)).trans htarget.1

theorem reaches_of_reaches_condense (ha : f.graph.Reached roots a)
    (hlead : (f.condense roots).2.graph.representative a = a)
    (hab : (f.condense roots).2.graph.Reaches a b) :
    f.graph.Reaches a b ∧ f.graph.Reached roots b ∧
      (f.condense roots).2.graph.representative b = b := by
  induction hab with
  | refl => exact ⟨ReflTransGen.refl, ha, hlead⟩
  | tail _ hstep ih =>
    obtain ⟨hreaches, hreached, hlead'⟩ := ih
    obtain ⟨hpath, hlead''⟩ := reaches_of_mem_logicalSuccessors hg hreached hlead' hstep
    exact ⟨hreaches.trans hpath, hreached.along hpath, hlead''⟩

/-- Roots lead no further after a pass than before it. -/
theorem reached_of_reached_condense (ha : (f.condense roots).2.graph.Reached roots a) :
    f.graph.Reached roots a ∧ (f.condense roots).2.graph.representative a = a := by
  obtain ⟨root, hroot, hc, hfus, hreach⟩ := ha
  rw [contains_condense hg] at hc
  have hstart : f.graph.Reached roots (f.graph.representative root) := by
    refine Classical.byContradiction fun hn => hn ?_
    exact ⟨root, hroot, hc, isFusable_of_not_reached hg hn hfus, ReflTransGen.refl⟩
  exact (reaches_of_reaches_condense hg ((reached_representative_condense hg roots).mpr hstart)
    (isFusable_iff.mp hfus).1 hreach).2

/-- **A pass leaves no cycle that its roots reach.** -/
theorem acyclic_condense : (f.condense roots).2.graph.Acyclic roots := by
  intro a b ha hab
  obtain ⟨hra, hlead_a⟩ := reached_of_reached_condense hg ha
  obtain ⟨hpath, hrb, hlead_b⟩ := reaches_of_reaches_condense hg hra hlead_a hab.1
  obtain ⟨hback, -, -⟩ := reaches_of_reaches_condense hg hrb hlead_b hab.2
  have hrep_a : f.graph.representative a = a := (isFusable_iff.mp hra.isFusable).1
  have hrep_b : f.graph.representative b = b := (isFusable_iff.mp hrb.isFusable).1
  have hsame := representative_condense_eq_iff hg roots (u := a) (v := b)
  rw [hrep_a, hrep_b, hlead_a, hlead_b] at hsame
  exact hsame.mpr (.inr ⟨hra, hrb, hpath, hback⟩)

end

/-! ## 3. A second pass -/

/-- **A second pass with the same roots changes nothing**: it finds no cycle of several components,
since none was left, and it writes marks only. -/
theorem condense_again (f : Flow φ τ) (hg : f.graph.WellFormed) (roots : List NodeId) :
    let once := (f.condense roots).2
    let again := once.condense roots
    once.graph.Acyclic roots ∧ again.1.fusedCycles = 0 ∧ again.1.absorbed = 0 ∧
      again.2.agenda = once.agenda ∧ again.2.graph.unmarked = once.graph.unmarked ∧
      ∀ n, again.2.graph.tokens n = once.graph.tokens n ∧
        again.2.graph.representative n = once.graph.representative n ∧
        again.2.graph.members n = once.graph.members n ∧
        again.2.graph.filter? n = once.graph.filter? n := by
  intro once again
  have hgrouped : once.graph.Grouped := grouped_condense hg.grouped roots
  have hacyclic : once.graph.Acyclic roots := acyclic_condense hg
  obtain ⟨hcycles, habsorbed, hagain⟩ := condense_of_acyclic hgrouped hacyclic
  have hagenda : again.2.agenda = once.agenda := congrArg (·.agenda) hagain
  have hunmarked : again.2.graph.unmarked = once.graph.unmarked :=
    (congrArg (·.graph.unmarked) hagain).trans (Survey.run_found hgrouped roots).unmarked
  refine ⟨hacyclic, hcycles, habsorbed, hagenda, hunmarked, fun n => ?_⟩
  exact ⟨tokens_of_unmarked hunmarked, representative_of_unmarked hunmarked,
    members_of_unmarked hunmarked, filter?_of_unmarked hunmarked⟩

/-- The circle of the filtered triangle is open at the filter; what is left of it is fused at once,
and the token that is on its way to its second node then waits for the first. -/
theorem condense_again_filteredTriangle :
    let f : Flow Unit Nat := (Flow.offer ⟨filteredTriangle, .empty .fifo⟩ ⟨1⟩ (.singleton 7)).2
    let once := (f.condense [⟨1⟩, ⟨2⟩]).2
    f.graph.WellFormed ∧ (f.condense [⟨1⟩, ⟨2⟩]).1.fusedCycles = 1 ∧
      once.agenda.delta? (.send ⟨0⟩) = some (.singleton 7) ∧
      (once.condense [⟨1⟩, ⟨2⟩]).1.fusedCycles = 0 ∧
      (once.condense [⟨1⟩, ⟨2⟩]).2.agenda = once.agenda := by
  intro f once
  have hwf : f.graph.WellFormed := wellFormed_filteredTriangle
  obtain ⟨-, hcycles, -, hagenda, -⟩ := condense_again f hwf [⟨1⟩, ⟨2⟩]
  exact ⟨hwf, by decide +kernel, by decide +kernel, hcycles, hagenda⟩

end Flow

end ValueFlow
