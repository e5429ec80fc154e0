import ValueFlow.Types.Tables

/-!
# Types and objects

A registry of class names with their direct supertypes, and of the objects that are allocated at
sites (`TypedTokenManager`). Both are numbered in the order in which they are first mentioned. An
object has a symbol, which is its number, and the type that its site was first allocated with.

A type filter keeps the objects whose type is the named one or below it. It looks into the registry
when it is applied, so it also knows of types and objects that came later.
-/

namespace ValueFlow

/-- A filter for a type, as it was handed out: equal numbers mean the very same filter. -/
structure TypeFilter where
  target : Nat
  number : Nat
  deriving DecidableEq, Repr

/-- **Types, objects, and the filters that were made.** The tables fit each other. -/
@[ext] structure TypeRegistry where
  tables : TypeTables
  sound : tables.Sound
  /-- the filters that are handed out again -/
  filters : List TypeFilter := []
  /-- how many filters were made so far -/
  made : Nat := 0

namespace TypeRegistry

def empty : TypeRegistry where
  tables := {}
  sound := .empty

instance : Inhabited TypeRegistry := ⟨empty⟩

/-! ## 1. Types -/

/-- The number of a known type. -/
def typeId? (r : TypeRegistry) (name : String) : Option Nat := r.tables.typeIds.get? name

/-- **Declare a type with its direct supertypes**; answers its number. -/
def declare (r : TypeRegistry) (name : String) (supertypes : List String) : Nat × TypeRegistry :=
  let declared := r.tables.declare name supertypes
  (declared.1, { r with tables := declared.2, sound := r.sound.declare name supertypes })

/-- A search for a type among those above another one. -/
structure Climb where
  /-- the types to look at, the next one first -/
  waiting : List Nat
  /-- the types whose supertypes were put to the waiting ones -/
  seen : List Nat
  deriving DecidableEq, Repr

namespace Climb

variable (rows : Array (List Nat))

/-- The direct supertypes of a type. -/
def above (id : Nat) : List Nat := (rows[id]?).getD []

/-- **One turn of a search**: the answer, or the search that is left. A type that is met for the
first time puts its supertypes in front of the waiting ones, and the last of them comes next. -/
def turn (target : Nat) : Climb → Bool ⊕ Climb
  | ⟨[], _⟩ => .inl false
  | ⟨t :: waiting, seen⟩ =>
    if t = target then .inl true
    else if seen.contains t then .inr ⟨waiting, seen⟩
    else .inr ⟨(above rows t).reverse ++ waiting, t :: seen⟩

/-- How many turns are left at most: one for each waiting type, and one for each supertype of a
type that was not met so far. -/
def effort (c : Climb) : Nat :=
  c.waiting.length +
    (((List.range rows.size).filter (!c.seen.contains ·)).map fun t =>
      (above rows t).length).foldr (· + ·) 0

variable {rows}

theorem above_of_size_le {t : Nat} (h : rows.size ≤ t) : above rows t = [] := by
  simp [above, Array.getElem?_eq_none h]

/-- Meeting a type for the first time uses up its supertypes. -/
theorem effort_expand {t : Nat} {waiting seen : List Nat} (ht : t ∉ seen) :
    effort rows ⟨(above rows t).reverse ++ waiting, t :: seen⟩ =
      effort rows ⟨waiting, seen⟩ := by
  unfold effort
  dsimp only
  rw [List.length_append, List.length_reverse]
  by_cases hlt : t < rows.size
  · have hmem : t ∈ (List.range rows.size).filter (!seen.contains ·) :=
      List.mem_filter.mpr ⟨List.mem_range.mpr hlt, by simpa using ht⟩
    have herase : (List.range rows.size).filter (fun i => !(t :: seen).contains i) =
        ((List.range rows.size).filter (!seen.contains ·)).erase t := by
      rw [List.Nodup.erase_eq_filter (List.nodup_range.filter _), List.filter_filter]
      refine List.filter_congr fun i _ => ?_
      rw [List.contains_cons, Bool.not_or]
      rfl
    have hsum := ((List.perm_cons_erase hmem).map fun t => (above rows t).length).sum_nat
    rw [List.map_cons, List.sum_cons, List.sum_eq_foldr, List.sum_eq_foldr] at hsum
    rw [herase, hsum]
    omega
  · have hsame : (List.range rows.size).filter (fun i => !(t :: seen).contains i) =
        (List.range rows.size).filter (!seen.contains ·) := by
      refine List.filter_congr fun i hi => ?_
      have hne : i ≠ t := fun h => hlt (h ▸ List.mem_range.mp hi)
      simp [hne]
    rw [hsame, above_of_size_le (Nat.le_of_not_lt hlt), List.length_nil, Nat.zero_add]

/-- A turn without an answer passes over a type that was met before, or turns to its supertypes. -/
theorem turn_eq_inr {target : Nat} {c c' : Climb} (h : c.turn rows target = .inr c') :
    ∃ t waiting, c.waiting = t :: waiting ∧ t ≠ target ∧
      (t ∈ c.seen ∧ c' = ⟨waiting, c.seen⟩ ∨
        t ∉ c.seen ∧ c' = ⟨(above rows t).reverse ++ waiting, t :: c.seen⟩) := by
  obtain ⟨_ | ⟨t, waiting⟩, seen⟩ := c
  · cases h
  · dsimp only [turn] at h
    split at h
    · cases h
    · rename_i ht
      refine ⟨t, waiting, rfl, ht, ?_⟩
      split at h
      · rename_i hseen
        exact .inl ⟨List.contains_iff_mem.mp hseen, (Sum.inr.inj h).symm⟩
      · rename_i hseen
        exact .inr ⟨fun hmem => hseen (List.contains_iff_mem.mpr hmem), (Sum.inr.inj h).symm⟩

/-- **Each turn without an answer uses up one.** -/
theorem effort_turn {target : Nat} {c c' : Climb} (h : c.turn rows target = .inr c') :
    c'.effort rows + 1 = c.effort rows := by
  obtain ⟨_, seen⟩ := c
  obtain ⟨t, waiting, rfl, -, hc'⟩ := turn_eq_inr h
  have hcons : effort rows ⟨t :: waiting, seen⟩ = effort rows ⟨waiting, seen⟩ + 1 := by
    simp only [effort, List.length_cons]
    omega
  obtain ⟨-, rfl⟩ | ⟨hseen, rfl⟩ := hc'
  · exact hcons.symm
  · rw [hcons, effort_expand hseen]

variable (rows)

/-- Search until there is an answer. -/
def run (target : Nat) (c : Climb) : Bool :=
  match _h : c.turn rows target with
  | .inl answer => answer
  | .inr c' => c'.run target
termination_by c.effort rows
decreasing_by exact effort_turn _h ▸ Nat.lt_succ_self _

end Climb

/-- Whether a type is the other one or below it. -/
def below (r : TypeRegistry) (sub sup : Nat) : Bool :=
  Climb.run r.tables.supertypes sup ⟨[sub], []⟩

/-- **Whether a name is a subtype of another**; an unknown name is not. -/
def isSubtype (r : TypeRegistry) (sub sup : String) : Bool :=
  match r.typeId? sub, r.typeId? sup with
  | some sub, some sup => r.below sub sup
  | _, _ => false

/-! ## 2. Objects -/

/-- **The object of a site**, allocated at the first mention, whose type it keeps. -/
def object (r : TypeRegistry) (type site : String) : Symbol × TypeRegistry :=
  let allocated := r.tables.object type site
  (allocated.1, { r with tables := allocated.2, sound := r.sound.object type site })

/-- The name of the type of an object. -/
def typeOf? (r : TypeRegistry) (symbol : Symbol) : Option String := r.tables.typeOf? symbol

/-- How many objects there are. -/
def symbolCount (r : TypeRegistry) : Nat := r.tables.symbolTypes.size

/-! ## 3. Filters -/

/-- **The filter for a known type**; the same one until the registry forgets it. -/
def typeFilter (r : TypeRegistry) (name : String) : Option TypeFilter × TypeRegistry :=
  match r.typeId? name with
  | none => (none, r)
  | some target =>
    match r.filters.find? fun f => f.target = target with
    | some f => (some f, r)
    | none =>
      let f : TypeFilter := ⟨target, r.made⟩
      (some f, { r with filters := f :: r.filters, made := r.made + 1 })

/-- Whether a symbol is an object whose type is the target or below it. -/
def admits (r : TypeRegistry) (target : Nat) (symbol : Symbol) : Bool :=
  match r.tables.symbolType? symbol with
  | some type => r.below type target
  | none => false

/-- Apply a filter, by what the registry says now. -/
def applyFilter (r : TypeRegistry) (f : TypeFilter) (tokens : TokenSet Symbol) :
    TokenSet Symbol :=
  tokens.filter (r.admits f.target)

/-- Forget the filters. Types and objects stay. -/
def reset (r : TypeRegistry) : TypeRegistry := { r with filters := [] }

def text (r : TypeRegistry) : String :=
  s!"TypedTokenManager \x7b types: {r.tables.typeNames.size}, symbols: {r.symbolCount}, " ++
    s!"cached_filters: {r.filters.length} \x7d"

end TypeRegistry

end ValueFlow
