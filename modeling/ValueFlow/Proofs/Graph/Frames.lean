import Mathlib.Computability.StateTransition
import ValueFlow.Proofs.Graph.Survey

/-!
# The walk as a loop

`Survey.explore` goes down by recursion, to a depth that is given to it. Here is the same walk as a
loop without a bound, over a list of frames: one for each component that was entered and not left.
A component is entered only as long as a number is left for it (`Walk.enter?`), so that a walk may
get stuck before its last frame is gone. From a root that is due to be visited it does not
(`completes_visit`): the walk begins, and it ends where `Survey.visit` tells.
-/

namespace ValueFlow

open Relation StateTransition Survey

/-- A component that was entered and not left, with the successors that are still to be looked
at. -/
structure Walk.Frame where
  node : NodeId
  todo : List NodeId

/-- **A walk that is under way**, with its frames, the innermost one first. -/
structure Walk (φ τ : Type) [Ordered τ] where
  survey : Survey φ τ
  frames : List Walk.Frame

namespace Walk

variable {φ τ : Type} [Ordered τ] {g : Graph φ τ} {s s' s₀ : Survey φ τ} {c n p root : NodeId}
  {goal : NodeId → Prop} {path done : List NodeId} {below : List Frame}

/-! ## 1. The loop -/

/-- Enter a component. This is refused when no number is left. -/
def enter? (s : Survey φ τ) (n : NodeId) (below : List Frame) : Option (Walk φ τ) :=
  if s.counter = 0 then none
  else some ⟨s.enter n, ⟨n, (s.enter n).graph.logicalSuccessors n⟩ :: below⟩

/-- Note on the component of the innermost frame that it reaches the number `high`. -/
def raiseTop (s : Survey φ τ) (high : Nat) : List Frame → Survey φ τ
  | [] => s
  | f :: _ => s.raise f.node high

/-- **One turn of the loop**: look at the next successor of the innermost component, or leave it
when there is none. -/
def step? : Walk φ τ → Option (Walk φ τ)
  | ⟨_, []⟩ => none
  | ⟨s, ⟨n, []⟩ :: below⟩ => some ⟨raiseTop (s.leave n) (s.high n) below, below⟩
  | ⟨s, ⟨n, c :: todo⟩ :: below⟩ =>
    if s.number c = 0 then enter? s c (⟨n, todo⟩ :: below)
    else if (s.graph.mark c).component = 0 then
      some ⟨s.raise n (s.number c), ⟨n, todo⟩ :: below⟩
    else some ⟨s, ⟨n, todo⟩ :: below⟩

/-- **The walk from `root` goes through**: if the root is due, the loop ends, with no frame left and
at `s'`; if it is not, all stays as it is. -/
def Completes (s : Survey φ τ) (root : NodeId) (s' : Survey φ τ) : Prop :=
  (s.Due root → ∃ w, enter? s (s.graph.representative root) [] = some w ∧
    ⟨s', []⟩ ∈ eval step? w) ∧ (¬ s.Due root → s' = s)

/-! ## 2. The loop does what the recursion does -/

/-- What a component reaches is not forgotten when it is left. -/
theorem high_leave (h : Loop g goal path p s₀ s done) : (s.leave p).high p = s.high p := by
  by_cases hroot : s.high p = s.number p
  · have e : s.leave p = s.close p := if_pos hroot
    obtain ⟨new, hst, _⟩ := h.new
    have hpn : p ∉ new := fun hp => Nat.lt_irrefl _ ((h.younger_older hst).1 p hp)
    have hps : p ∈ s.seen := List.mem_append_left _ h.mem_stack_self
    have hcp : s.graph.contains p := h.inv.contains_graph ▸ h.inv.contains p hps
    rw [e]
    exact ((closes_close hst hpn).assigned p (by simp) hcp).2
  · have e : s.leave p = s := if_neg hroot
    rw [e]

theorem reaches_leave (h : Loop g goal path p s₀ s done) :
    Reaches step? ⟨s, ⟨p, []⟩ :: below⟩
      ⟨raiseTop (s.leave p) ((s.leave p).high p) below, below⟩ := by
  rw [high_leave h]
  exact ReflTransGen.single rfl

/-- One successor: the loop goes there and comes back, notes its number or passes it over. -/
theorem reaches_follow {depth : Nat} {todo : List NodeId}
    (hdown : s.number c = 0 → ∃ w, enter? s c (⟨n, todo⟩ :: below) = some w ∧
      Reaches step? w
        ⟨(explore depth s c).raise n ((explore depth s c).high c), ⟨n, todo⟩ :: below⟩) :
    Reaches step? ⟨s, ⟨n, c :: todo⟩ :: below⟩ ⟨follow depth n s c, ⟨n, todo⟩ :: below⟩ := by
  unfold follow
  by_cases hnum : s.number c = 0
  · obtain ⟨w, hw, hreaches⟩ := hdown hnum
    have hstep : step? ⟨s, ⟨n, c :: todo⟩ :: below⟩ = some w := (if_pos hnum).trans hw
    rw [if_pos hnum]
    exact ReflTransGen.head hstep hreaches
  · rw [if_neg hnum]
    by_cases hcomp : (s.graph.mark c).component = 0
    · rw [if_pos hcomp]
      exact ReflTransGen.single ((if_neg hnum).trans (if_pos hcomp))
    · rw [if_neg hcomp]
      exact ReflTransGen.single ((if_neg hnum).trans (if_neg hcomp))

/-- **The loop walks like the recursion**, to a depth: a component that was not visited yet can be
entered, and the loop comes back to the frames below it with what `Survey.explore` finds. -/
def WalksLike (g : Graph φ τ) (goal : NodeId → Prop) (depth : Nat) : Prop :=
  ∀ (s : Survey φ τ) (n : NodeId) (path : List NodeId) (below : List Frame),
    Inv g goal path s → g.contains n → s.number n = 0 → goal n →
    (∀ a ∈ path, g.Reaches a n) → s.counter ≤ depth →
    ∃ w, enter? s n below = some w ∧
      Reaches step? w ⟨raiseTop (explore depth s n) ((explore depth s n).high n) below, below⟩

section

variable (hg : g.Grouped) (hgoal : ∀ a b, goal a → b ∈ g.logicalSuccessors a → goal b)
include hg hgoal

/-- All successors, one after the other. -/
theorem reaches_foldl {depth : Nat} (hdown : WalksLike g goal depth) (hs : Inv g goal path s₀)
    (hgn : goal n) (hle : s₀.counter ≤ depth + 1) (todo : List NodeId) :
    ∀ (done : List NodeId) (s : Survey φ τ), Loop g goal path n s₀ s done →
      (∀ c ∈ todo, c ∈ g.logicalSuccessors n) →
      Reaches step? ⟨s, ⟨n, todo⟩ :: below⟩ ⟨todo.foldl (follow depth n) s, ⟨n, []⟩ :: below⟩ ∧
        Loop g goal path n s₀ (todo.foldl (follow depth n) s) (done ++ todo) := by
  induction todo with
  | nil =>
    intro done s h _
    rw [List.append_nil]
    exact ⟨ReflTransGen.refl, h⟩
  | cons c todo ih =>
    intro done s h hsucc
    have hc := hsucc c List.mem_cons_self
    have hcontains := Graph.contains_of_mem_logicalSuccessors hg hc
    have hgc := hgoal n c hgn hc
    have hreach := h.path_reaches hs hc
    have hdepth : s.counter ≤ depth := by
      have := h.counter_lt
      omega
    -- the invariant of the recursion holds between two successors, so each of them can be entered
    have hfollow := h.follow depth hs hc fun hnum =>
      explore_spec hg hgoal depth s c (n :: path) h.inv hcontains hnum hgc hreach hdepth
    have hfirst := reaches_follow fun hnum =>
      hdown s c (n :: path) (⟨n, todo⟩ :: below) h.inv hcontains hnum hgc hreach hdepth
    obtain ⟨hreaches, hlast⟩ :=
      ih (done ++ [c]) _ hfollow fun k hk => hsucc k (List.mem_cons_of_mem _ hk)
    rw [List.append_assoc] at hlast
    exact ⟨ReflTransGen.trans hfirst hreaches, hlast⟩

theorem walksLike (depth : Nat) : WalksLike g goal depth := by
  induction depth with
  | zero =>
    intro s n path below hs hn hnum _ _ hle
    have := hs.counter_pos hn hnum
    omega
  | succ depth ih =>
    intro s n path below hs hn hnum hgn hpath hle
    have henter := loop_enter hs hn hnum hgn hpath
    have hpos := hs.counter_pos hn hnum
    obtain ⟨hreaches, hlast⟩ := reaches_foldl hg hgoal ih hs hgn hle _ [] _ henter fun _ h => h
    refine ⟨_, if_neg (Nat.ne_of_gt hpos), ?_⟩
    rw [explore_succ, henter.inv.logicalSuccessors]
    exact ReflTransGen.trans hreaches (reaches_leave hlast)

end

/-- **A root is visited to the end.** -/
theorem completes_visit (hg : g.Grouped)
    (hgoal : ∀ a b, goal a → b ∈ g.logicalSuccessors a → goal b)
    (hroot : g.contains root → g.isFusable (g.representative root) →
      goal (g.representative root)) (hs : Inv g goal [] s) :
    Completes s root (s.visit root) := by
  refine ⟨fun hdue => ?_, visit_of_not_due⟩
  obtain ⟨hc, hf, hnum⟩ := hs.due_iff.mp hdue
  have hsize : s.counter ≤ g.size := by
    have := hs.count
    omega
  rw [visit_of_due hdue, Graph.size_of_unmarked hs.unmarked,
    Graph.representative_of_unmarked hs.unmarked]
  obtain ⟨w, hw, hreaches⟩ := walksLike hg hgoal g.size s _ [] [] hs (hg.contains_rep hc) hnum
    (hroot hc hf) nofun hsize
  exact ⟨w, hw, mem_eval.mpr ⟨hreaches, rfl⟩⟩

end Walk

end ValueFlow
