import ValueFlow.Context
import ValueFlow.Graph.Node

/-!
# Variants

A variant is an entity in one context, with the nodes that carry its values. What nodes it has is
told by the shape of the entity.

* `Shape` (`VariantShape`): which nodes are asked for;
* `Layout` (`VariantKind`), `Variant`: the nodes that there are, and whose they are.
-/

namespace ValueFlow

/-- Which nodes an entity needs. -/
inductive Shape where
  /-- one value: locals, fields, expressions -/
  | value
  /-- parameters, perhaps a receiver and a result, and the exceptions that escape -/
  | method (parameters : Nat) (hasReceiver hasResult : Bool)
  /-- a call: its value and the exceptions that escape from it -/
  | invocation
  deriving DecidableEq, Repr, Inhabited

/-- The nodes of a variant. -/
inductive Layout where
  | value (node : NodeId)
  | method (receiver : Option NodeId) (parameters : List NodeId) (result : Option NodeId)
      (thrown : NodeId)
  | invocation (node thrown : NodeId)
  deriving DecidableEq, Repr, Inhabited

namespace Layout

/-- The node that carries the value; of a method, the result. -/
def node? : Layout → Option NodeId
  | .value n => some n
  | .method _ _ result _ => result
  | .invocation n _ => some n

def parameter? : Layout → Nat → Option NodeId
  | .method _ ps _ _, i => ps[i]?
  | _, _ => none

def receiver? : Layout → Option NodeId
  | .method receiver _ _ _ => receiver
  | _ => none

def result? : Layout → Option NodeId
  | .method _ _ result _ => result
  | _ => none

def thrown? : Layout → Option NodeId
  | .method _ _ _ thrown => some thrown
  | .invocation _ thrown => some thrown
  | .value _ => none

/-- All nodes, in the order of their creation. -/
def nodes : Layout → List NodeId
  | .value n => [n]
  | .method receiver ps result thrown => receiver.toList ++ ps ++ result.toList ++ [thrown]
  | .invocation n thrown => [n, thrown]

end Layout

/-- **An entity in one context, with its nodes.** -/
structure Variant (ε : Type) where
  entity : ε
  context : Context ε
  layout : Layout
  deriving DecidableEq, Repr

end ValueFlow
