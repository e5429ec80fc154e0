import Mathlib.Data.Set.Function
import Mathlib.Order.Interval.Set.Defs
import ValueFlow.Proofs.Flow.Condense
import ValueFlow.Proofs.Graph.Frames

/-!
# The marks that a pass leaves

Fusing does not touch the marks of the search, so they can be read off the graph after the pass.
`Graph.Marked` says what they are, in terms of the graph before it: the numbers of the components
that were visited have no gap and no repetition, the component numbers tell the cycles apart and
never rise along an edge, and nothing else was written to. `condense_bookkeeping` adds that the walk
of each root goes through, one turn of the loop after the other.
-/

namespace ValueFlow

variable {φ τ : Type} [Ordered τ] {g : Graph φ τ} {s : Survey φ τ} {roots : List NodeId}
  {a b n : NodeId}

/-- **The marks on `g'` after a search of `g`** that visited so many components and found so many
cycles. -/
structure Graph.Marked (g : Graph φ τ) (roots : List NodeId) (visited cycles : Nat)
    (g' : Graph φ τ) : Prop where
  visited_le : visited ≤ g.size
  number_ne_zero : ∀ n, (g'.mark n).number ≠ 0 ↔ g.Reached roots n
  numbers : Set.BijOn (fun n => (g'.mark n).number) {n | g.Reached roots n}
    (Set.Ioc (g.size - visited) g.size)
  blank : ∀ n, ¬ g.Reached roots n → g'.mark n = {}
  component_bounds : ∀ n, g.Reached roots n →
    1 ≤ (g'.mark n).component ∧ (g'.mark n).component ≤ cycles
  same : ∀ a b, g.Reached roots a → g.Reached roots b →
    ((g'.mark a).component = (g'.mark b).component ↔ g.Mutual a b)
  descending : ∀ a b, g.Reached roots a → b ∈ g.logicalSuccessors a →
    (g'.mark b).component ≤ (g'.mark a).component

theorem Graph.Marked.congr {visited cycles : Nat} {g' g'' : Graph φ τ}
    (h : g.Marked roots visited cycles g') (hmark : ∀ n, g''.mark n = g'.mark n) :
    g.Marked roots visited cycles g'' := by
  have hnumber : (fun n => (g''.mark n).number) = fun n => (g'.mark n).number :=
    funext fun n => by rw [hmark n]
  exact
    { visited_le := h.visited_le
      number_ne_zero := fun n => hmark n ▸ h.number_ne_zero n
      numbers := hnumber ▸ h.numbers
      blank := fun n hn => (hmark n).trans (h.blank n hn)
      component_bounds := fun n hn => hmark n ▸ h.component_bounds n hn
      same := fun a b ha hb => by rw [hmark a, hmark b]; exact h.same a b ha hb
      descending := fun a b ha hb => by rw [hmark a, hmark b]; exact h.descending a b ha hb }

namespace Survey

/-! ## 1. Numbers -/

/-- **The numbers of what was visited** are those above the counter, each of them once. -/
theorem Numbered.bijOn_number {goal : NodeId → Prop} (hs : Numbered g goal s) :
    Set.BijOn s.number {n | n ∈ s.seen} (Set.Ioc s.counter g.size) := by
  have hmem : ∀ k, k ∈ s.seen.map s.number ↔ s.counter < k ∧ k ≤ g.size := fun k => by
    have hcount := hs.count
    rw [hs.numbers.mem_iff, List.mem_range'_1]
    omega
  have hnodup : (s.seen.map s.number).Nodup := hs.numbers.nodup_iff.mpr List.nodup_range'
  refine ⟨fun n hn => ?_, fun n hn m hm e => ?_, fun k hk => ?_⟩
  · exact (hmem _).mp (List.mem_map_of_mem hn)
  · exact List.inj_on_of_nodup_map hnodup hn hm e
  · exact List.mem_map.mp ((hmem k).mpr hk)

/-! ## 2. Component numbers -/

section

variable {goal : NodeId → Prop} {path : List NodeId} (hs : Inv g goal path s)
include hs

/-- The component number of what is closed is the position of its cycle, counted from one. -/
theorem Inv.component_of_closed (h : n ∈ s.cycles.flatten) : ∃ (i : Nat) (c : List NodeId),
    s.cycles[i]? = some c ∧ n ∈ c ∧ (s.graph.mark n).component = i + 1 := by
  obtain ⟨i, c, hc, hn⟩ := mem_closed h
  exact ⟨i, c, hc, hn, hs.closed_component i c hc n hn⟩

theorem Inv.component_bounds (h : n ∈ s.cycles.flatten) :
    1 ≤ (s.graph.mark n).component ∧ (s.graph.mark n).component ≤ s.cycles.length := by
  obtain ⟨i, c, hc, _, e⟩ := hs.component_of_closed h
  have hi := (List.getElem?_eq_some_iff.mp hc).1
  omega

/-- **Component numbers tell the cycles apart.** -/
theorem Inv.component_eq_iff (ha : a ∈ s.cycles.flatten) (hb : b ∈ s.cycles.flatten) :
    (s.graph.mark a).component = (s.graph.mark b).component ↔ g.Mutual a b := by
  obtain ⟨i, c, hc, hac, ea⟩ := hs.component_of_closed ha
  obtain ⟨j, d, hd, hbd, eb⟩ := hs.component_of_closed hb
  have hcycle := (hs.cycle c (List.mem_of_getElem? hc)).2 a hac b
  rw [ea, eb, ← hcycle]
  constructor
  · intro e
    have hij : i = j := by omega
    have hcd : c = d := Option.some.inj (hc.symm.trans (hij ▸ hd))
    exact hcd ▸ hbd
  · intro hbc
    rw [← eb, hs.closed_component i c hc b hbc]

/-- **No edge leads to a higher component number**: what is reached is closed earlier. -/
theorem Inv.component_le (ha : a ∈ s.cycles.flatten) (hb : b ∈ g.logicalSuccessors a) :
    (s.graph.mark b).component ≤ (s.graph.mark a).component := by
  obtain ⟨i, c, hc, hac, ea⟩ := hs.component_of_closed ha
  obtain ⟨j, hj, d, hd, hbd⟩ := hs.closed_successors i c hc a hac b hb
  rw [ea, hs.closed_component j d hd b hbd]
  omega

end

/-- **The marks after a search.** -/
theorem marked_run (hg : g.Grouped) (roots : List NodeId) :
    g.Marked roots (run g roots).visited (run g roots).cycles.length (run g roots).graph := by
  obtain ⟨hinv, -⟩ := run_inv hg roots
  have hfound := run_found hg roots
  have hseen := seen_run hg roots
  have hclosed : ∀ n, n ∈ (run g roots).cycles.flatten ↔ g.Reached roots n := hfound.mem_cycles
  have hreached : {n | g.Reached roots n} = {n | n ∈ (run g roots).seen} := by
    simp only [hseen, hclosed]
  have hsize : (run g roots).graph.size = g.size := Graph.size_of_unmarked hfound.unmarked
  have hcounter : g.size - (run g roots).visited = (run g roots).counter := by
    have := hinv.count
    unfold visited
    omega
  refine
    { visited_le := by unfold visited; omega
      number_ne_zero := fun n => number_run hg roots
      numbers := ?_
      blank := fun n hn => hinv.blank n ?_
      component_bounds := fun n hn => hinv.component_bounds ((hclosed n).mpr hn)
      same := fun a b ha hb => hinv.component_eq_iff ((hclosed a).mpr ha) ((hclosed b).mpr hb)
      descending := fun a b ha hb => hinv.component_le ((hclosed a).mpr ha) hb }
  · rw [hcounter, hreached]
    exact hinv.bijOn_number
  · rw [hseen, hclosed]
    exact hn

/-- **The walk of every root goes through**, and leaves nothing open. -/
theorem completes_run (hg : g.Grouped) (before : List NodeId) (root : NodeId) :
    Walk.Completes (run g before) root (run g (before ++ [root])) ∧
      (run g (before ++ [root])).stack = [] := by
  have hrun : run g (before ++ [root]) = (run g before).visit root := by
    unfold run
    rw [List.foldl_append]
    rfl
  have hinv := (run_inv hg (before ++ [root])).1
  refine ⟨?_, hinv.stack_eq_nil rfl⟩
  obtain ⟨hbefore, -⟩ := run_inv hg before
  rw [hrun]
  -- what this root reaches is not bound by what the earlier ones reach
  have hfree : Inv g (fun _ => True) [] (run g before) :=
    { hbefore with goal := fun _ _ => trivial }
  exact Walk.completes_visit hg (fun _ _ _ _ => trivial) (fun _ _ => trivial) hfree

end Survey

/-! ## 3. A pass -/

namespace Flow

/-- Fusing keeps the marks. -/
theorem mark_condense (f : Flow φ τ) (roots : List NodeId) (n : NodeId) :
    (f.condense roots).2.graph.mark n = (Survey.run f.graph roots).graph.mark n := by
  have hfold : ∀ (cycles : List (List NodeId)) (f : Flow φ τ),
      (cycles.foldl fuse f).graph.mark n = f.graph.mark n := by
    intro cycles
    induction cycles with
    | nil => exact fun _ => rfl
    | cons c cycles ih => exact fun f => (ih (f.fuse c)).trans mark_fuse
  exact hfold _ _

/-- **The bookkeeping of a pass**: the walk of each root ends without running out of numbers and
leaves nothing open, and the marks are as they should be. -/
theorem condense_bookkeeping (f : Flow φ τ) (hg : f.graph.WellFormed) (roots : List NodeId) :
    (∀ before root after, roots = before ++ root :: after →
      Walk.Completes (Survey.run f.graph before) root (Survey.run f.graph (before ++ [root])) ∧
        (Survey.run f.graph (before ++ [root])).stack = []) ∧
    f.graph.Marked roots (f.condense roots).1.visited (f.condense roots).1.cycles
      (f.condense roots).2.graph :=
  ⟨fun before root _ _ => Survey.completes_run hg.grouped before root,
    (Survey.marked_run hg.grouped roots).congr (mark_condense f roots)⟩

/-- Two nodes in a circle, a third one behind them and a fourth one before them. -/
def tailedCircle : Graph Unit Nat :=
  let addLink (g : Graph Unit Nat) (a b : Nat) :=
    g.modify ⟨a⟩ fun v => { v with links := v.links.insert ⟨b⟩ }
  let nodes := ((((Graph.empty.addNode none).2.addNode none).2.addNode none).2.addNode none).2
  addLink (addLink (addLink (addLink nodes 0 1) 1 0) 1 2) 3 0

theorem wellFormed_tailedCircle : tailedCircle.WellFormed := by
  have hnodes := (((Graph.wellFormed_empty.addNode none).addNode none).addNode none).addNode none
    (φ := Unit) (τ := Nat)
  exact (((hnodes.addLink (n := ⟨0⟩) (a := ⟨1⟩) (by decide) (by decide)).addLink
    (n := ⟨1⟩) (a := ⟨0⟩) (by decide) (by decide)).addLink (n := ⟨1⟩) (a := ⟨2⟩)
    (by decide) (by decide)).addLink (n := ⟨3⟩) (a := ⟨0⟩) (by decide) (by decide)

theorem condense_bookkeeping_tailedCircle :
    let f : Flow Unit Nat := ⟨tailedCircle, .empty .fifo⟩
    let roots : List NodeId := [⟨9⟩, ⟨0⟩, ⟨2⟩]
    f.graph.WellFormed ∧ f.graph.Mutual ⟨0⟩ ⟨1⟩ ∧ ¬ f.graph.Mutual ⟨1⟩ ⟨2⟩ ∧
      ¬ f.graph.Reached roots ⟨3⟩ ∧
      Set.BijOn (fun n => ((f.condense roots).2.graph.mark n).number)
        {n | f.graph.Reached roots n} (Set.Ioc 1 4) := by
  intro f roots
  obtain ⟨-, hmarked⟩ := condense_bookkeeping f wellFormed_tailedCircle roots
  have hreached : ∀ n, ((f.condense roots).2.graph.mark n).number ≠ 0 → f.graph.Reached roots n :=
    fun n => (hmarked.number_ne_zero n).mp
  have h₀ := hreached ⟨0⟩ (by decide +kernel)
  have h₁ := hreached ⟨1⟩ (by decide +kernel)
  have h₂ := hreached ⟨2⟩ (by decide +kernel)
  refine ⟨wellFormed_tailedCircle, (hmarked.same _ _ h₀ h₁).mp (by decide +kernel),
    fun h => ?_, fun h => ?_, ?_⟩
  · exact absurd ((hmarked.same _ _ h₁ h₂).mpr h) (by decide +kernel)
  · exact absurd ((hmarked.number_ne_zero ⟨3⟩).mpr h) (by decide +kernel)
  · have hbounds : f.graph.size - (f.condense roots).1.visited = 1 ∧ f.graph.size = 4 := by
      decide +kernel
    exact hbounds.1 ▸ hbounds.2 ▸ hmarked.numbers

end Flow

end ValueFlow
