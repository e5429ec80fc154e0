import ValueFlow.Graph.Basic

/-!
# The search for cycles

One depth-first walk over the fusable components finds the cycles among them (`TarjanPass`, with
`enter`, `visit`, and `close` for `close_component`). Numbers count down from the size of the graph,
so that zero can stand for "not visited". A component is *open* while it is visited and not yet
assigned; its `high` is the highest number of an open component it is known to reach. When a walk is
about to leave a component whose `high` is its own number, the open components entered since then
are exactly its cycle.
-/

namespace ValueFlow

/-- **The state of the walk.** -/
structure Survey (φ τ : Type) [Ordered τ] where
  graph : Graph φ τ
  /-- the number that the next component gets -/
  counter : Nat
  /-- the open components, last entered first -/
  stack : List NodeId
  /-- the cycles found so far, in the order in which they were closed -/
  cycles : List (List NodeId)

namespace Survey

variable {φ τ : Type} [Ordered τ]

def setMark (s : Survey φ τ) (n : NodeId) (f : Mark → Mark) : Survey φ τ :=
  { s with graph := s.graph.modify n fun v => { v with mark := f v.mark } }

def start (g : Graph φ τ) : Survey φ τ :=
  { graph := ⟨g.nodes.map fun v => { v with mark := {} }⟩
    counter := g.size, stack := [], cycles := [] }

/-- Enter a component: it gets the next number and is open. -/
def enter (s : Survey φ τ) (n : NodeId) : Survey φ τ :=
  let s := s.setMark n fun _ => { number := s.counter, high := s.counter, component := 0 }
  { s with counter := s.counter - 1, stack := n :: s.stack }

/-- Note on `n` that it reaches the number `high`. -/
def raise (s : Survey φ τ) (n : NodeId) (high : Nat) : Survey φ τ :=
  s.setMark n fun m => { m with high := max m.high high }

/-- Close the cycle of `n`: all that was entered since `n`, and `n` itself. -/
def close (s : Survey φ τ) (n : NodeId) : Survey φ τ :=
  let cycle := s.stack.takeWhile (· ≠ n) ++ (s.stack.dropWhile (· ≠ n)).take 1
  let number := s.cycles.length + 1
  let s := cycle.foldl (fun s m => s.setMark m fun k => { k with component := number }) s
  { s with stack := (s.stack.dropWhile (· ≠ n)).drop 1, cycles := s.cycles ++ [cycle] }

/-- Leave a component, closing its cycle if nothing older is reached from it. -/
def leave (s : Survey φ τ) (n : NodeId) : Survey φ τ :=
  let m := s.graph.mark n
  if m.high = m.number then s.close n else s

/-- Walk everything that is reached from `n` and not visited yet. The walk never goes deeper than
there are components, which is what `depth` counts. -/
def explore : Nat → Survey φ τ → NodeId → Survey φ τ
  | 0, s, _ => s
  | depth + 1, s, n =>
    let s := s.enter n
    let s := (s.graph.logicalSuccessors n).foldl (fun s c =>
      let m := s.graph.mark c
      if m.number = 0 then
        let s := explore depth s c
        s.raise n (s.graph.mark c).high
      else if m.component = 0 then s.raise n m.number
      else s) s
    s.leave n

/-- Walk from the component of one root. -/
def visit (s : Survey φ τ) (root : NodeId) : Survey φ τ :=
  if s.graph.contains root then
    let r := s.graph.representative root
    if s.graph.isFusable r && (s.graph.mark r).number == 0 then explore s.graph.size s r else s
  else s

/-- Walk from the components of all roots; handles without a node are skipped. -/
def run (g : Graph φ τ) (roots : List NodeId) : Survey φ τ :=
  roots.foldl visit (start g)

/-- How many components were visited. -/
def visited (s : Survey φ τ) : Nat := s.graph.size - s.counter

end Survey

end ValueFlow
