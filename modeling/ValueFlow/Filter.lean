import ValueFlow.Token

/-!
# Filter rules

Filters that are given by a rule. All but `shift` keep a subset of the tokens they are applied to,
and all but `shift` and `smallest` decide it token by token.
-/

namespace ValueFlow

inductive FilterRule (τ : Type) where
  | keep (tokens : List τ)
  | drop (tokens : List τ)
  /-- tokens below a bound -/
  | below (bound : τ)
  /-- tokens whose weight is no multiple of the number -/
  | dropMultiples (of : Nat)
  /-- the smallest tokens, so many of them -/
  | smallest (count : Nat)
  /-- every token moved by the same distance -/
  | shift (distance : τ)
  | all
  deriving DecidableEq, Repr

def FilterRule.apply {τ : Type} [Token τ] : FilterRule τ → TokenSet τ → TokenSet τ
  | .keep tokens, s => s.filter fun t => tokens.contains t
  | .drop tokens, s => s.filter fun t => !tokens.contains t
  | .below bound, s => s.filter fun t => t < bound
  | .dropMultiples of, s => s.filter fun t => Token.weight t % of != 0
  | .smallest count, s => s.smallest count
  | .shift distance, s => s.map fun t => Token.shift t distance
  | .all, s => s

end ValueFlow
