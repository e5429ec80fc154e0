import ValueFlow.Graph.Basic
import ValueFlow.Token

/-!
# Graphs in writing

The form in which nodes and graphs are shown for inspection.
-/

namespace ValueFlow

/-- A record with named fields. -/
def Text.record (name : String) (fields : List (String × String)) : String :=
  name ++ " \x7b " ++ ", ".intercalate (fields.map fun (k, v) => k ++ ": " ++ v) ++ " \x7d"

def Text.bool (b : Bool) : String := if b then "true" else "false"

def NodeId.text (n : NodeId) : String := s!"NodeId({n.index})"

def ListenerId.text (l : ListenerId) : String := s!"ListenerId({l.index})"

def Role.text : Role → String
  | .value => "Value"
  | .receiver => "This"
  | .parameter i => s!"Param({i})"
  | .result => "Return"
  | .thrown => "Thrown"
  | .auxiliary => "Auxiliary"

def Label.text (l : Label) : String :=
  Text.record "NodeLabel"
    [("variant", match l.owner with
        | some v => s!"Some(VariantId({v.index}))"
        | none => "None"),
     ("role", l.role.text)]

def Mark.text (m : Mark) : String :=
  Text.record "SccData"
    [("dfs_num", toString m.number), ("high", toString m.high),
     ("component_num", toString m.component)]

def Node.text {φ τ : Type} [Token τ] (v : Node φ τ) : String :=
  Text.record "FlowNode"
    [("tokens", Token.setText v.tokens.elements),
     ("successors", Text.listed "[" "]" (v.links.order.map NodeId.text)),
     ("filtered", Text.bool v.filter.isSome),
     ("listeners", Text.listed "[" "]" (v.listeners.map ListenerId.text)),
     ("label", match v.label with
        | some l => s!"Some({l.text})"
        | none => "None"),
     ("scc", v.mark.text),
     ("representative", v.representative.text)]

def Graph.text {φ τ : Type} [Token τ] (g : Graph φ τ) : String :=
  Text.record "FlowGraph" [("nodes", Text.listed "[" "]" (g.nodes.toList.map Node.text))]

end ValueFlow
