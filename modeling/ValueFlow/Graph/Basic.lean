import ValueFlow.Graph.Node
import ValueFlow.Usage

/-!
# The graph

Nodes in the order of their creation, addressed by position. Reading at a handle that no node has
gives what a fresh node would give, and writing there changes nothing; the operations that refuse
such handles are in `ValueFlow.Flow.Bounds`.

A filter is a value of an arbitrary type `φ`. What it does to a token set is told by a function
`sieve`, which the operations take as an argument: what a filter lets through may then depend on
facts that are collected while the graph is in use.

Here is what `FlowGraph` does without an agenda:

* `addNode` (`add_node`), `setFilter` (`set_filter`), `outbound`;
* `component` (`component_members`), `isFusable` (`is_collapsible`), `logicalSuccessors`
  (`logical_successors`): the components, and the links among those that can be fused.
-/

namespace ValueFlow

/-- **Nodes by position.** -/
structure Graph (φ τ : Type) [Ordered τ] where
  nodes : Array (Node φ τ)

namespace Graph

variable {φ τ : Type} [Ordered τ]

def empty : Graph φ τ := ⟨#[]⟩

instance : Inhabited (Graph φ τ) := ⟨empty⟩

/-! ## 1. Reading -/

def size (g : Graph φ τ) : Nat := g.nodes.size

def isEmpty (g : Graph φ τ) : Bool := g.nodes.isEmpty

def contains (g : Graph φ τ) (n : NodeId) : Bool := n.index < g.nodes.size

def node? (g : Graph φ τ) (n : NodeId) : Option (Node φ τ) := g.nodes[n.index]?

def ids (g : Graph φ τ) : List NodeId := (List.range g.nodes.size).map NodeId.mk

/-- The node that holds the tokens of `n`. -/
def representative (g : Graph φ τ) (n : NodeId) : NodeId :=
  match g.node? n with
  | some v => v.representative
  | none => n

/-- The tokens stored at the node itself. -/
def stored (g : Graph φ τ) (n : NodeId) : TokenSet τ :=
  match g.node? n with
  | some v => v.tokens
  | none => ∅

/-- **The tokens of a node**, read at its representative. -/
def tokens (g : Graph φ τ) (n : NodeId) : TokenSet τ := g.stored (g.representative n)

def successors (g : Graph φ τ) (n : NodeId) : List NodeId :=
  match g.node? n with
  | some v => v.links.order
  | none => []

def linked (g : Graph φ τ) (source target : NodeId) : Bool :=
  match g.node? source with
  | some v => v.links.contains target
  | none => false

def listeners (g : Graph φ τ) (n : NodeId) : List ListenerId :=
  match g.node? n with
  | some v => v.listeners
  | none => []

def filter? (g : Graph φ τ) (n : NodeId) : Option φ := (g.node? n).bind Node.filter

def mark (g : Graph φ τ) (n : NodeId) : Mark :=
  match g.node? n with
  | some v => v.mark
  | none => {}

def fused (g : Graph φ τ) (n : NodeId) : Bool :=
  match g.node? n with
  | some v => v.fused
  | none => false

/-- The nodes whose tokens the representative `r` holds. -/
def component (g : Graph φ τ) (r : NodeId) : List NodeId :=
  match g.node? r with
  | some v => if v.members.isEmpty then [r] else v.members
  | none => [r]

/-! ## 2. Writing -/

def modify (g : Graph φ τ) (n : NodeId) (f : Node φ τ → Node φ τ) : Graph φ τ :=
  ⟨g.nodes.modify n.index f⟩

/-- Add a node at the end; answers its handle. -/
def addNode (g : Graph φ τ) (label : Option Label) : NodeId × Graph φ τ :=
  let n : NodeId := ⟨g.nodes.size⟩
  (n, ⟨g.nodes.push { label, representative := n }⟩)

/-- Put a filter on a node. It takes the place of an earlier one and leaves the tokens that are
already there. Nodes of a component share their tokens, so they take no filter. -/
def setFilter (g : Graph φ τ) (n : NodeId) (f : φ) : Except UsageError (Graph φ τ) :=
  if g.fused n then .error (.filterOnFused n)
  else .ok (g.modify n fun v => { v with filter := some f })

/-! ## 3. Filters -/

/-- The tokens that the filter of `n` lets through. -/
def screen (sieve : φ → TokenSet τ → TokenSet τ) (g : Graph φ τ) (n : NodeId)
    (tokens : TokenSet τ) : TokenSet τ :=
  match g.filter? n with
  | some f => sieve f tokens
  | none => tokens

/-- What leaves `n` when it has `tokens` to pass on. -/
def outbound (sieve : φ → TokenSet τ → TokenSet τ) (g : Graph φ τ) (n : NodeId)
    (tokens : TokenSet τ) : TokenSet τ :=
  if tokens.isEmpty then tokens else g.screen sieve n tokens

/-! ## 4. The graph of components -/

/-- Only unfiltered representatives can be fused: to fuse across a filter would let tokens pass it
unscreened. -/
def isFusable (g : Graph φ τ) (n : NodeId) : Bool :=
  g.representative n == n && (g.filter? n).isNone

/-- The fusable components that the component of `r` flows into, each once, in the order in which
its nodes name them. -/
def logicalSuccessors (g : Graph φ τ) (r : NodeId) : List NodeId :=
  let targets := (g.component r).flatMap fun m => (g.successors m).filterMap fun s =>
    if g.contains s && g.representative s != r && g.isFusable (g.representative s)
      then some (g.representative s) else none
  targets.foldl (fun seen t => if seen.contains t then seen else seen ++ [t]) []

end Graph

end ValueFlow
