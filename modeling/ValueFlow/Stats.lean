/-!
# Statistics

What a run counted (`SolverStats`), and the average work of a round as a double-precision number
(`work_per_round`).
-/

namespace ValueFlow

structure Stats where
  variants : Nat := 0
  nodes : Nat := 0
  rounds : Nat := 0
  /-- executed work items -/
  work : Nat := 0
  /-- passes that condense cycles -/
  passes : Nat := 0
  /-- cycles that were fused -/
  fusedCycles : Nat := 0
  /-- components that were merged into another one -/
  absorbed : Nat := 0
  deriving DecidableEq, Repr, Inhabited

/-- Work per round; zero before the first round. Both counts are below `2 ^ 64` and are rounded to
the nearest double before they are divided. -/
def Stats.workPerRound (s : Stats) : Float :=
  if s.rounds = 0 then 0 else (UInt64.ofNat s.work).toFloat / (UInt64.ofNat s.rounds).toFloat

end ValueFlow
