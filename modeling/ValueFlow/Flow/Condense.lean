import ValueFlow.Flow.Fuse
import ValueFlow.Graph.Survey

/-!
# Condensing cycles

Every cycle that a survey finds is fused (`optimize`, with the report `SccPassStats`). Final token
sets do not change by it; what changes is that tokens no longer travel around the cycle link by
link.
-/

namespace ValueFlow

/-- **What a pass did.** -/
structure CondenseReport where
  /-- components visited -/
  visited : Nat
  /-- cycles found, single components included -/
  cycles : Nat
  /-- cycles of more than one component -/
  fusedCycles : Nat
  /-- components that were merged into another one -/
  absorbed : Nat
  /-- the number of components on the largest cycle -/
  largest : Nat
  deriving DecidableEq, Repr, Inhabited

namespace Flow

variable {φ τ : Type} [Ordered τ]

def reportOf (s : Survey φ τ) : CondenseReport :=
  let proper := s.cycles.filter fun c => 2 ≤ c.length
  { visited := s.visited
    cycles := s.cycles.length
    fusedCycles := proper.length
    absorbed := (proper.map fun c => c.length - 1).foldr (· + ·) 0
    largest := (s.cycles.map List.length).foldl max 0 }

/-- **Fuse the cycles that are reached from the roots.** -/
def condense (f : Flow φ τ) (roots : List NodeId) : CondenseReport × Flow φ τ :=
  let s := Survey.run f.graph roots
  (reportOf s, s.cycles.foldl fuse { f with graph := s.graph })

end Flow

end ValueFlow
