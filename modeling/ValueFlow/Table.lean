/-!
# Tables

Finite maps as lists of rows, read through `get?`. A key has at most one row: `set` replaces the
row of its key in place, and `erase` drops it.
-/

namespace ValueFlow

structure Table (κ ν : Type) where
  rows : List (κ × ν)

namespace Table

variable {κ ν : Type}

def empty : Table κ ν := ⟨[]⟩

instance : EmptyCollection (Table κ ν) := ⟨empty⟩

instance : Inhabited (Table κ ν) := ⟨empty⟩

def size (t : Table κ ν) : Nat := t.rows.length

variable [DecidableEq κ]

def getRow (k : κ) : List (κ × ν) → Option ν
  | [] => none
  | row :: rows => if row.1 = k then some row.2 else getRow k rows

def setRow (k : κ) (v : ν) : List (κ × ν) → List (κ × ν)
  | [] => [(k, v)]
  | row :: rows => if row.1 = k then (k, v) :: rows else row :: setRow k v rows

def get? (t : Table κ ν) (k : κ) : Option ν := getRow k t.rows

def set (t : Table κ ν) (k : κ) (v : ν) : Table κ ν := ⟨setRow k v t.rows⟩

def erase (t : Table κ ν) (k : κ) : Table κ ν := ⟨t.rows.filter (fun row => row.1 ≠ k)⟩

@[simp] theorem get?_empty (k : κ) : (∅ : Table κ ν).get? k = none := rfl

theorem getRow_setRow (k k' : κ) (v : ν) (rows : List (κ × ν)) :
    getRow k' (setRow k v rows) = if k = k' then some v else getRow k' rows := by
  induction rows with
  | nil => rfl
  | cons row rows ih => grind [getRow, setRow]

theorem getRow_filter (k k' : κ) (rows : List (κ × ν)) :
    getRow k' (rows.filter (fun row => row.1 ≠ k)) = if k = k' then none else getRow k' rows := by
  induction rows with
  | nil => simp [getRow]
  | cons row rows ih => grind [getRow]

theorem get?_set (t : Table κ ν) (k k' : κ) (v : ν) :
    (t.set k v).get? k' = if k = k' then some v else t.get? k' :=
  getRow_setRow k k' v t.rows

theorem get?_erase (t : Table κ ν) (k k' : κ) :
    (t.erase k).get? k' = if k = k' then none else t.get? k' :=
  getRow_filter k k' t.rows

end Table

end ValueFlow
