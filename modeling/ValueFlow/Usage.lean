import ValueFlow.Work.Item

/-!
# Wrong use

The ways in which a request can be refused because it does not fit the state it meets
(`invalid_usage` of `FlowError`).
-/

namespace ValueFlow

inductive UsageError where
  /-- the node does not exist -/
  | unknownNode (node : NodeId)
  /-- the listener does not exist -/
  | unknownListener (listener : ListenerId)
  /-- a filter was asked for on a node that shares its tokens with others -/
  | filterOnFused (node : NodeId)
  /-- a collaborator reports a misuse in its own words -/
  | reported (text : String)
  deriving DecidableEq, Repr

def UsageError.message : UsageError → String
  | .unknownNode n => s!"unknown node {n.name}"
  | .unknownListener l => s!"unknown listener ListenerId({l.index})"
  | .filterOnFused n => s!"cannot install a filter on {n.name}: node is part of a collapsed SCC"
  | .reported text => text

end ValueFlow
