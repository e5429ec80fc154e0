import ValueFlow.Graph.Basic
import ValueFlow.Work.Agenda

/-!
# Token flow

A graph together with its agenda. Tokens enter a node at once (`deliver`) or wait on the agenda
until a later round (`offer`). New tokens of a component are passed on from each of its nodes, in
order: first along the links, then to the listeners.

This is what `FlowGraph` does with a `Scheduler`:

* `deliver` (`inject`), `offer` (`absorb_lazily`): tokens that come to a node;
* `Graph.forward` (`forward_from_member`): tokens that are passed on;
* `link` (`add_successor`), `subscribe` (`add_listener`): ways that tokens take from now on.
-/

namespace ValueFlow

/-- **A graph and the work that waits on it.** -/
structure Flow (φ τ : Type) [Ordered τ] where
  graph : Graph φ τ
  agenda : Agenda τ

/-- Let the tokens that `n` lacks wait for it; answers whether there are any. -/
def Graph.offer {φ τ : Type} [Ordered τ] (g : Graph φ τ) (a : Agenda τ) (n : NodeId)
    (tokens : TokenSet τ) : Bool × Agenda τ :=
  let r := g.representative n
  let missing := tokens \ g.stored r
  if missing.isEmpty then (false, a) else (true, (a.post (.send r) missing).2)

/-- Pass `tokens` on from one node: offer them to its successors, and let them wait for its
listeners. -/
def Graph.forward {φ τ : Type} [Ordered τ] (g : Graph φ τ) (a : Agenda τ) (n : NodeId)
    (tokens : TokenSet τ) : Agenda τ :=
  let a := (g.successors n).foldl (fun a s => (g.offer a s tokens).2) a
  (g.listeners n).foldl (fun a l => (a.post (.notify n l) tokens).2) a

namespace Flow

variable {φ τ : Type} [Ordered τ]

def empty (order : BagOrder) : Flow φ τ := ⟨.empty, .empty order⟩

def addNode (f : Flow φ τ) (label : Option Label) : NodeId × Flow φ τ :=
  let (n, graph) := f.graph.addNode label
  (n, { f with graph })

def setFilter (f : Flow φ τ) (n : NodeId) (filter : φ) : Except UsageError (Flow φ τ) :=
  (f.graph.setFilter n filter).map fun graph => { f with graph }

def offer (f : Flow φ τ) (n : NodeId) (tokens : TokenSet τ) : Bool × Flow φ τ :=
  let (any, agenda) := f.graph.offer f.agenda n tokens
  (any, { f with agenda })

variable (sieve : φ → TokenSet τ → TokenSet τ)

/-- The tokens that a delivery of `tokens` to `n` adds: those that are missing there and pass the
filter. -/
def gain (f : Flow φ τ) (n : NodeId) (tokens : TokenSet τ) : TokenSet τ :=
  let r := f.graph.representative n
  f.graph.screen sieve r (tokens \ f.graph.stored r)

/-- **Put tokens into a node now** and pass on what is new; answers whether anything was gained. -/
def deliver (f : Flow φ τ) (n : NodeId) (tokens : TokenSet τ) : Bool × Flow φ τ :=
  let r := f.graph.representative n
  let gained := f.gain sieve n tokens
  if gained.isEmpty then (false, f)
  else
    let graph := f.graph.modify r fun v => { v with tokens := v.tokens ∪ gained }
    let out := graph.outbound sieve r gained
    if out.isEmpty then (true, { f with graph })
    else
      (true, { graph,
               agenda := (graph.component r).foldl (fun a m => graph.forward a m out) f.agenda })

/-- **Link two nodes** and offer the tokens of the source to the target; answers whether the link
is new. -/
def link (f : Flow φ τ) (source target : NodeId) : Bool × Flow φ τ :=
  if f.graph.linked source target then (false, f)
  else
    let graph := f.graph.modify source fun v => { v with links := v.links.insert target }
    let r := graph.representative source
    let current := graph.outbound sieve r (graph.stored r)
    if current.isEmpty then (true, { f with graph })
    else (true, { graph, agenda := (graph.offer f.agenda target current).2 })

/-- **Attach a listener**; the tokens that the node has already wait for it. -/
def subscribe (f : Flow φ τ) (n : NodeId) (l : ListenerId) : Flow φ τ :=
  let graph := f.graph.modify n fun v => { v with listeners := v.listeners ++ [l] }
  let r := graph.representative n
  let current := graph.outbound sieve r (graph.stored r)
  { graph, agenda := (f.agenda.post (.notify n l) current).2 }

end Flow

end ValueFlow
