import ValueFlow.SortedSet
import ValueFlow.Work.Item

/-!
# Nodes

A node holds tokens, the list of nodes they flow on to, at most one filter, and listeners. Nodes
that lie on a common cycle can be fused into a component: one of them, the representative, then
holds the tokens of all.

* `Role`, `Label` (`NodeRole`, `NodeLabel`): which part of which variant a node plays;
* `Links`: the successors in the order in which they were added, with an index for membership;
* `Mark` (`SccData`): the numbers that the search for cycles writes on a node;
* `Node` (`FlowNode`): all of this.
-/

namespace ValueFlow

/-! ## 1. Labels -/

inductive Role where
  | value
  | receiver
  | parameter (position : Nat)
  | result
  | thrown
  /-- a helper node that no variant owns -/
  | auxiliary
  deriving DecidableEq, Repr, Inhabited

/-- Whose node it is, and as what. -/
structure Label where
  owner : Option VariantId
  role : Role
  deriving DecidableEq, Repr, Inhabited

def Label.of (owner : VariantId) (role : Role) : Label := ⟨some owner, role⟩

def Label.auxiliary : Label := ⟨none, .auxiliary⟩

/-! ## 2. Successors -/

instance : LT NodeId := ⟨fun a b => a.index < b.index⟩

instance : Ordered NodeId where
  decLt a b := inferInstanceAs (Decidable (a.index < b.index))
  irrefl a := Nat.lt_irrefl a.index
  trans h₁ h₂ := Nat.lt_trans h₁ h₂
  eq_of_not_lt {a b} h₁ h₂ := by
    cases a; cases b
    exact congrArg NodeId.mk (Nat.le_antisymm (Nat.le_of_not_lt h₂) (Nat.le_of_not_lt h₁))

/-- The smaller of two handles. -/
def NodeId.min (a b : NodeId) : NodeId := if b < a then b else a

/-- **Successors without repetition**, in the order in which they were added. -/
structure Links where
  order : List NodeId
  index : SortedSet NodeId
  deriving DecidableEq

namespace Links

def empty : Links := ⟨[], ∅⟩

def contains (l : Links) (n : NodeId) : Bool := l.index.contains n

/-- Add a successor at the end, unless it is there already. -/
def insert (l : Links) (n : NodeId) : Links :=
  if l.contains n then l else ⟨l.order ++ [n], l.index.insert n⟩

end Links

/-! ## 3. Nodes -/

/-- What the search for cycles notes on a node: the number given at the visit, the highest number
of an open node that it reaches, and the number of its closed component. Zero is "not yet". -/
structure Mark where
  number : Nat := 0
  high : Nat := 0
  component : Nat := 0
  deriving DecidableEq, Repr, Inhabited

/-- **A node**, over filters `φ` and tokens `τ`. -/
structure Node (φ τ : Type) [Ordered τ] where
  /-- the stored tokens; a node of a component keeps them at its representative -/
  tokens : TokenSet τ := ∅
  links : Links := .empty
  filter : Option φ := none
  listeners : List ListenerId := []
  label : Option Label := none
  mark : Mark := {}
  /-- whether the node belongs to a component of several nodes -/
  fused : Bool := false
  representative : NodeId
  /-- the nodes of the component; only at a representative, and empty for a single node -/
  members : List NodeId := []

end ValueFlow
