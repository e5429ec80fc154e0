/-!
# Handles and work items

Nodes, variants, listeners and tasks live in tables that only grow, and are addressed by their
position. A work item names one piece of postponed work by such handles (`SendTokens`,
`NotifyListener`, `Task`).

The engine keeps handles in 32 bits, as it does symbols, and the registry does so with the numbers
of types. Here all of these but the symbols are natural numbers. So what is proved of an engine is
about it as long as none of its tables has more than 2^32 rows; this bound is not repeated.
-/

namespace ValueFlow

structure NodeId where
  index : Nat
  deriving DecidableEq, Repr, Inhabited

structure VariantId where
  index : Nat
  deriving DecidableEq, Repr, Inhabited

structure ListenerId where
  index : Nat
  deriving DecidableEq, Repr, Inhabited

structure TaskId where
  index : Nat
  deriving DecidableEq, Repr, Inhabited

/-- The short name of a node in messages. -/
def NodeId.name (n : NodeId) : String := s!"n{n.index}"

/-- **One piece of postponed work.** -/
inductive WorkItem where
  /-- put the pending tokens into the node -/
  | send (node : NodeId)
  /-- hand the pending tokens of the node to the listener -/
  | notify (node : NodeId) (listener : ListenerId)
  /-- run a postponed routine -/
  | task (id : TaskId)
  deriving DecidableEq, Repr

/-- Whether tokens can be pending for the item. -/
def WorkItem.carriesTokens : WorkItem → Bool
  | .send _ => true
  | .notify _ _ => true
  | .task _ => false

end ValueFlow
