/-!
# Work bags

A bag (`WorkBag`) holds each item at most once and hands the items out in one of two orders: the
youngest entry first, or the oldest.

Adding writes an entry at the young end of the queue. Removing an item only takes it off the list
of present items: its entry stays in the queue and is skipped when its turn comes. An item that is
removed and added again therefore has two entries, and whichever of them comes up first hands it
out; the other is then skipped.

* `add` (`add_work`), `take` (`take_work`), `remove`, `drain` (`drain_pending`).
-/

namespace ValueFlow

/-- Which end of the queue is handed out first. -/
inductive BagOrder where
  /-- youngest entry first -/
  | lifo
  /-- oldest entry first -/
  | fifo
  deriving DecidableEq, Repr, Inhabited

/-- **A duplicate-free bag of work.** The queue is split in two, so that both of its ends are heads
of lists; `entries` is the whole queue. -/
structure Bag (α : Type) where
  order : BagOrder
  /-- the old end of the queue, oldest entry first -/
  older : List α
  /-- the young end of the queue, youngest entry first -/
  newer : List α
  /-- the items that are in the bag -/
  present : List α
  deriving DecidableEq, Repr

namespace Bag

variable {α : Type}

def empty (order : BagOrder) : Bag α := ⟨order, [], [], []⟩

/-- The queue from the oldest entry to the youngest, skipped entries included. -/
def entries (b : Bag α) : List α :=
  match b.newer with
  | [] => b.older
  | newer => b.older ++ newer.reverse

/-- The queue from the youngest entry to the oldest, skipped entries included. -/
def entriesRev (b : Bag α) : List α :=
  match b.older with
  | [] => b.newer
  | older => b.newer ++ older.reverse

@[simp] theorem entries_eq (b : Bag α) : b.entries = b.older ++ b.newer.reverse := by
  unfold entries
  split <;> simp_all

@[simp] theorem entriesRev_eq (b : Bag α) : b.entriesRev = b.entries.reverse := by
  unfold entriesRev
  split <;> simp_all

def size (b : Bag α) : Nat := b.present.length

def isEmpty (b : Bag α) : Bool := b.present.isEmpty

def hasWork (b : Bag α) : Bool := !b.isEmpty

def clear (b : Bag α) : Bag α := empty b.order

variable [DecidableEq α]

def contains (b : Bag α) (a : α) : Bool := b.present.contains a

/-- Put `a` into the bag; answers whether it was absent. -/
def add (b : Bag α) (a : α) : Bool × Bag α :=
  if b.contains a then (false, b)
  else (true, { b with newer := a :: b.newer, present := a :: b.present })

/-- Take `a` out of the bag wherever it is in the queue; answers whether it was present. -/
def remove (b : Bag α) (a : α) : Bool × Bag α :=
  (b.contains a, { b with present := b.present.erase a })

/-- Hand out the next item: the first entry, from the end that the order names, whose item is
present. -/
def take (b : Bag α) : Option α × Bag α :=
  match b.order with
  | .lifo =>
    match b.entriesRev.dropWhile (fun a => !b.contains a) with
    | [] => (none, { b with older := [], newer := [] })
    | a :: rest => (some a, { b with older := [], newer := rest, present := b.present.erase a })
  | .fifo =>
    match b.entries.dropWhile (fun a => !b.contains a) with
    | [] => (none, { b with older := [], newer := [] })
    | a :: rest => (some a, { b with older := rest, newer := [], present := b.present.erase a })

/-- The entries that still count: each present item at its first place. -/
def pendingOf : List α → List α → List α
  | _, [] => []
  | present, a :: rest =>
    if present.contains a then a :: pendingOf (present.erase a) rest else pendingOf present rest

/-- Empty the bag; answers its items from the oldest entry on. -/
def drain (b : Bag α) : List α × Bag α :=
  (pendingOf b.present b.entries, b.clear)

end Bag

end ValueFlow
