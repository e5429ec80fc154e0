import ValueFlow.Context

/-!
# Indices

An entity and a context name a variant. Indices are handed out by a pool, which either makes a new
copy every time or gives equal requests the same copy. Copies are told apart by the number under
which they were made.

* `Index`, `IndexCopy` (`IndexRef`): what names a variant, and its copies;
* `IndexPool` (`IndexManager`), `get` (`get_index`): the pool, by its strategy a
  `MemoryIntensiveCanonicalizer` or a `ProcessorIntensiveCanonicalizer`.
-/

namespace ValueFlow

/-- Whether equal indices are shared. -/
inductive IndexStrategy where
  /-- a copy for every request -/
  | memoryIntensive
  /-- one copy for equal requests -/
  | processorIntensive
  deriving DecidableEq, Repr, Inhabited

structure Index (ε : Type) where
  entity : ε
  context : Context ε
  deriving DecidableEq, Repr

/-- An index as it was handed out: equal numbers mean the same copy. -/
structure IndexCopy (ε : Type) where
  index : Index ε
  number : Nat
  deriving DecidableEq, Repr

/-- **The source of indices.** -/
structure IndexPool (ε : Type) where
  strategy : IndexStrategy
  /-- the copies that are kept for sharing -/
  shared : List (IndexCopy ε) := []
  /-- how many copies were made so far -/
  made : Nat := 0

namespace IndexPool

variable {ε : Type}

def empty (strategy : IndexStrategy) : IndexPool ε := { strategy }

/-- The number of copies kept for sharing. -/
def size (p : IndexPool ε) : Nat := p.shared.length

/-- Keep none of the copies; they are not handed out again. -/
def reset (p : IndexPool ε) : IndexPool ε := { p with shared := [] }

/-- **Hand out an index.** -/
def get [DecidableEq ε] (p : IndexPool ε) (entity : ε) (context : Context ε) :
    IndexCopy ε × IndexPool ε :=
  let index : Index ε := ⟨entity, context⟩
  let copy : IndexCopy ε := ⟨index, p.made⟩
  match p.strategy with
  | .memoryIntensive => (copy, { p with made := p.made + 1 })
  | .processorIntensive =>
    match p.shared.find? fun c => c.index = index with
    | some kept => (kept, p)
    | none => (copy, { p with shared := p.shared ++ [copy], made := p.made + 1 })

/-- What is handed out is what was asked for. -/
theorem index_get [DecidableEq ε] (p : IndexPool ε) (entity : ε) (context : Context ε) :
    (p.get entity context).1.index = ⟨entity, context⟩ := by
  unfold get
  dsimp only
  split
  · rfl
  · split
    · rename_i kept hkept
      simpa using List.find?_some hkept
    · rfl

end IndexPool

def IndexStrategy.text : IndexStrategy → String
  | .memoryIntensive => "MemoryIntensive"
  | .processorIntensive => "ProcessorIntensive"

def IndexPool.text {ε : Type} (p : IndexPool ε) : String :=
  s!"IndexManager \x7b strategy: {p.strategy.text}, canonical_count: {p.size} \x7d"

end ValueFlow
