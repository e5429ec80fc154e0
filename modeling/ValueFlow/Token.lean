import ValueFlow.SortedSet
import ValueFlow.Text.Quoted

/-!
# Tokens

Two kinds of tokens are in use: symbols, which are 32-bit numbers, and texts. Filters and scripts
compute with them through the operations collected here.
-/

namespace ValueFlow

/-- A symbol: the number of an abstract value. -/
abbrev Symbol := UInt32

/-- **A kind of token.** -/
class Token (τ : Type) extends Ordered τ where
  decEq : DecidableEq τ
  /-- the number by which tokens are told apart into multiples: the symbol itself, or the length
  of the text -/
  weight : τ → Nat
  /-- `shift t by` moves a token: symbols are added, wrapping around, and texts are appended -/
  shift : τ → τ → τ
  /-- how the token is written inside a name -/
  text : τ → String
  /-- the token that stands for an allocated symbol -/
  ofSymbol : Symbol → τ
  /-- how a set of such tokens is written -/
  setText : List τ → String

instance {τ : Type} [Token τ] : DecidableEq τ := Token.decEq

instance : Token Symbol where
  decEq := inferInstance
  weight := UInt32.toNat
  shift t d := t + d
  text t := toString t.toNat
  ofSymbol t := t
  setText ts :=
    "SymbolSet \x7b elements: " ++ Text.listed "[" "]" (ts.map fun t => toString t.toNat) ++ " \x7d"

instance : Token String where
  decEq := inferInstance
  weight := String.length
  shift t d := t ++ d
  text t := t
  ofSymbol t := toString t.toNat
  setText ts := Text.listed "\x7b" "\x7d" (ts.map Text.quote)

end ValueFlow
