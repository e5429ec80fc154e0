import ValueFlow.Flow.Basic

/-!
# Rounds

A round hands out the bag of queued items and executes them one by one: tokens that wait for a node
are delivered to it, tokens that wait for a listener are taken off the agenda.
-/

namespace ValueFlow

/-- An executed item, the tokens it carried, and whether they changed the node they went to. -/
structure Executed (τ : Type) [Ordered τ] where
  item : WorkItem
  delta : Option (TokenSet τ)
  grew : Option Bool

namespace Flow

variable {φ τ : Type} [Ordered τ]
variable (sieve : φ → TokenSet τ → TokenSet τ)

/-- Execute one item. -/
def execute (f : Flow φ τ) (item : WorkItem) : Executed τ × Flow φ τ :=
  let (delta, agenda) := f.agenda.collect item
  let f := { f with agenda }
  match item, delta with
  | .send n, some tokens =>
    let (grew, f) := f.deliver sieve n tokens
    (⟨item, delta, some grew⟩, f)
  | _, _ => (⟨item, delta, none⟩, f)

/-- Execute at most `count` items of a bag. -/
def executeItems : Nat → Bag WorkItem → Flow φ τ → List (Executed τ) × Flow φ τ
  | 0, _, f => ([], f)
  | count + 1, bag, f =>
    match bag.take with
    | (none, _) => ([], f)
    | (some item, bag) =>
      let (done, f) := f.execute sieve item
      let (rest, f) := executeItems count bag f
      (done :: rest, f)

/-- **Execute a whole round**; `none` if nothing is queued. -/
def round (f : Flow φ τ) : Option (List (Executed τ) × Flow φ τ) :=
  f.agenda.startRound.map fun (bag, agenda) =>
    executeItems sieve bag.size bag { f with agenda }

end Flow

end ValueFlow
