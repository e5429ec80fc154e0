import ValueFlow.Flow.Condense
import ValueFlow.Flow.Round

/-!
# Operations that refuse handles without a node

A link may name a node that does not exist. Nothing happens as long as no tokens are to pass along
it; an operation that would follow it, or that is called with such a handle itself, is refused here
with `none`. Where these operations answer, they answer what the unchecked ones do.
-/

namespace ValueFlow

/-- Whether a node of the component of `r` has a link to a node that does not exist. -/
def Graph.dangling {φ τ : Type} [Ordered τ] (g : Graph φ τ) (r : NodeId) : Bool :=
  (g.component r).any fun m => (g.successors m).any fun s => !g.contains s

namespace Flow

variable {φ τ : Type} [Ordered τ]

def offer? (f : Flow φ τ) (n : NodeId) (tokens : TokenSet τ) : Option (Bool × Flow φ τ) :=
  if f.graph.contains n then some (f.offer n tokens) else none

/-- `none` stands for a missing node, the error for a node that takes no filter. -/
def setFilter? (f : Flow φ τ) (n : NodeId) (filter : φ) :
    Option (Except UsageError (Flow φ τ)) :=
  if f.graph.contains n then some (f.setFilter n filter) else none

/-- A survey follows every link of every component that it visits, so one dangling link among them
is enough to refuse it. -/
def condense? (f : Flow φ τ) (roots : List NodeId) : Option (CondenseReport × Flow φ τ) :=
  let g := (Survey.run f.graph roots).graph
  if g.ids.any fun n => (g.mark n).number != 0 && g.dangling n then none
  else some (f.condense roots)

variable (sieve : φ → TokenSet τ → TokenSet τ)

def deliver? (f : Flow φ τ) (n : NodeId) (tokens : TokenSet τ) : Option (Bool × Flow φ τ) :=
  let r := f.graph.representative n
  let passedOn := f.graph.outbound sieve r (f.gain sieve n tokens)
  if !f.graph.contains n || (!passedOn.isEmpty && f.graph.dangling r) then none
  else some (f.deliver sieve n tokens)

def link? (f : Flow φ τ) (source target : NodeId) : Option (Bool × Flow φ τ) :=
  let r := f.graph.representative source
  let current := f.graph.outbound sieve r (f.graph.stored r)
  let followed := !f.graph.linked source target && !current.isEmpty
  if !f.graph.contains source || (followed && !f.graph.contains target) then none
  else some (f.link sieve source target)

def subscribe? (f : Flow φ τ) (n : NodeId) (l : ListenerId) : Option (Flow φ τ) :=
  if f.graph.contains n then some (f.subscribe sieve n l) else none

def execute? (f : Flow φ τ) (item : WorkItem) : Option (Executed τ × Flow φ τ) :=
  match item, f.agenda.delta? item with
  | .send n, some tokens =>
    (f.deliver? sieve n tokens).map fun _ => f.execute sieve item
  | _, _ => some (f.execute sieve item)

/-- Execute at most `count` items of a bag. -/
def executeItems? : Nat → Bag WorkItem → Flow φ τ → Option (List (Executed τ) × Flow φ τ)
  | 0, _, f => some ([], f)
  | count + 1, bag, f =>
    match bag.take with
    | (none, _) => some ([], f)
    | (some item, bag) => do
      let (done, f) ← f.execute? sieve item
      let (rest, f) ← executeItems? count bag f
      return (done :: rest, f)

end Flow

end ValueFlow
