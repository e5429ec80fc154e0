import ValueFlow.SortedSet
import ValueFlow.Table
import ValueFlow.Work.Bag
import ValueFlow.Work.Item

/-!
# The agenda

Work is done in rounds. New work is put into the bag of the next round, so what a round produces is
seen only by the round after it. The tokens that an item carries are kept beside the bag, in a
table keyed by the item: posting tokens for an item that already waits merges them into what it
carries and queues nothing. The bag with its table is the agenda (`Scheduler`).

* `post` (`absorb`), `schedule`: new work, with tokens and without;
* `startRound` (`begin_round`), `putBack` (`requeue`): the bag is handed out, and what is left of it
  comes back;
* `delta?` (`pending_delta`), `collect` (`take_delta`), `withdraw`: the tokens of an item.
-/

namespace ValueFlow

/-- **The work of the next round and the tokens that wait.** -/
structure Agenda (τ : Type) [Ordered τ] where
  next : Bag WorkItem
  deltas : Table WorkItem (TokenSet τ)

namespace Agenda

variable {τ : Type} [Ordered τ]

def empty (order : BagOrder) : Agenda τ := ⟨.empty order, ∅⟩

/-- The tokens that wait for an item. -/
def delta? (a : Agenda τ) (item : WorkItem) : Option (TokenSet τ) := a.deltas.get? item

/-- Queue an item that carries nothing; answers whether it was not queued yet. -/
def schedule (a : Agenda τ) (item : WorkItem) : Bool × Agenda τ :=
  let (added, next) := a.next.add item
  (added, { a with next })

/-- Let `tokens` wait for `item`; answers whether nothing waited for it before. Without tokens
nothing happens. -/
def post (a : Agenda τ) (item : WorkItem) (tokens : TokenSet τ) : Bool × Agenda τ :=
  if tokens.isEmpty then (false, a)
  else
    match a.delta? item with
    | some waiting => (false, { a with deltas := a.deltas.set item (waiting ∪ tokens) })
    | none =>
      (true, { next := (a.next.add item).2, deltas := a.deltas.set item tokens })

/-- Hand out the bag of the next round, unless it is empty. -/
def startRound (a : Agenda τ) : Option (Bag WorkItem × Agenda τ) :=
  if a.next.isEmpty then none
  else some (a.next, { a with next := .empty a.next.order })

/-- Queue again what is left in the bag of an interrupted round, oldest entry first. The tokens of
its items never left the table. -/
def putBack (a : Agenda τ) (bag : Bag WorkItem) : Agenda τ :=
  { a with next := bag.drain.1.foldl (fun next item => (next.add item).2) a.next }

/-- Take out the tokens of an item that is about to be executed. -/
def collect (a : Agenda τ) (item : WorkItem) : Option (TokenSet τ) × Agenda τ :=
  (a.delta? item, { a with deltas := a.deltas.erase item })

/-- Cancel an item that carries tokens and answer them; other items stay. -/
def withdraw (a : Agenda τ) (item : WorkItem) : Option (TokenSet τ) × Agenda τ :=
  match a.delta? item with
  | none => (none, a)
  | some tokens =>
    (some tokens, { next := (a.next.remove item).2, deltas := a.deltas.erase item })

def hasWork (a : Agenda τ) : Bool := a.next.hasWork

/-- The number of items queued for the next round. -/
def queued (a : Agenda τ) : Nat := a.next.size

def clear (a : Agenda τ) : Agenda τ := .empty a.next.order

end Agenda

end ValueFlow
