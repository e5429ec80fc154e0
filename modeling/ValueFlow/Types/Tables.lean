import ValueFlow.Table
import ValueFlow.Token

/-!
# The tables of types and objects

`TypeRegistry` keeps five tables. Three are of types: the number of each name, and by the numbers
the names and the direct supertypes. Two are of the objects that are allocated at sites: the types
of the objects by their symbols, and the symbol of each site. Each table is grown for itself
(`intern`, `declare_type`, `object`), and a number that is read in one of them is looked up in
another without a further question.

* `TypeTables`: the tables, and what is entered in them;
* `TypeTables.Sound`: the tables fit each other;
* `Sound.intern`, `Sound.addSupertype`, `Sound.declare`, `Sound.object`: whatever is entered, they
  go on to.
-/

namespace ValueFlow

/-- **The tables of types and objects.** -/
structure TypeTables where
  /-- the number of each known name -/
  typeIds : Table String Nat := ∅
  /-- the names by their numbers -/
  typeNames : Array String := #[]
  /-- the numbers of the direct supertypes of each type -/
  supertypes : Array (List Nat) := #[]
  /-- the type of each symbol -/
  symbolTypes : Array Nat := #[]
  /-- the symbol of each known site -/
  sites : Table String Symbol := ∅

namespace TypeTables

/-! ## 1. Entries -/

/-- The number of a type, which is known from now on. -/
def intern (t : TypeTables) (name : String) : Nat × TypeTables :=
  match t.typeIds.get? name with
  | some id => (id, t)
  | none =>
    let id := t.typeNames.size
    (id, { t with
      typeIds := t.typeIds.set name id
      typeNames := t.typeNames.push name
      supertypes := t.supertypes.push [] })

/-- Add a number to the direct supertypes of a type, unless it is one of them. -/
def addTo (t : TypeTables) (id sup : Nat) : TypeTables :=
  { t with supertypes := t.supertypes.modify id fun row =>
      if row.contains sup then row else row ++ [sup] }

/-- Add one direct supertype to a type. -/
def addSupertype (t : TypeTables) (id : Nat) (name : String) : TypeTables :=
  let (sup, t) := t.intern name
  t.addTo id sup

/-- **Declare a type with its direct supertypes**; answers its number. A repeated declaration adds
to the earlier one. -/
def declare (t : TypeTables) (name : String) (supertypes : List String) : Nat × TypeTables :=
  let (id, t) := t.intern name
  (id, supertypes.foldl (fun t sup => t.addSupertype id sup) t)

/-- **The object of a site**, allocated at the first mention, whose type it keeps. -/
def object (t : TypeTables) (type site : String) : Symbol × TypeTables :=
  match t.sites.get? site with
  | some symbol => (symbol, t)
  | none =>
    let (id, t) := t.intern type
    let symbol := UInt32.ofNat t.symbolTypes.size
    (symbol, { t with
      symbolTypes := t.symbolTypes.push id
      sites := t.sites.set site symbol })

/-- The type of a symbol. -/
def symbolType? (t : TypeTables) (symbol : Symbol) : Option Nat := t.symbolTypes[symbol.toNat]?

/-- The name of the type of an object. -/
def typeOf? (t : TypeTables) (symbol : Symbol) : Option String :=
  (t.symbolType? symbol).bind fun id => t.typeNames[id]?

/-! ## 2. Tables that fit each other -/

/-- **The tables fit each other.** -/
structure Sound (t : TypeTables) : Prop where
  /-- numbers and names correspond to each other -/
  typeIds : ∀ {name id}, t.typeIds.get? name = some id ↔ t.typeNames[id]? = some name
  /-- each type has its row of supertypes -/
  size : t.supertypes.size = t.typeNames.size
  /-- the supertypes of a type are types, and each is stored once -/
  rows : ∀ {id : Nat} {row : List Nat}, t.supertypes[id]? = some row →
    row.Nodup ∧ ∀ sup ∈ row, sup < t.typeNames.size
  /-- the type of a symbol is a type -/
  symbolTypes : ∀ {i id : Nat}, t.symbolTypes[i]? = some id → id < t.typeNames.size
  /-- the symbol of a site is the number of an object -/
  sites : ∀ {site symbol}, t.sites.get? site = some symbol →
    ∃ i < t.symbolTypes.size, symbol = UInt32.ofNat i

variable {t : TypeTables} {id sup : Nat} {name type site : String}

theorem intern_of_some (h : t.typeIds.get? name = some id) : t.intern name = (id, t) := by
  unfold intern
  rw [h]

theorem intern_of_none (h : t.typeIds.get? name = none) :
    t.intern name = (t.typeNames.size, { t with
      typeIds := t.typeIds.set name t.typeNames.size
      typeNames := t.typeNames.push name
      supertypes := t.supertypes.push [] }) := by
  unfold intern
  rw [h]

/-- What was interned is known by its number. -/
theorem get?_typeIds_intern (t : TypeTables) (name : String) :
    (t.intern name).2.typeIds.get? name = some (t.intern name).1 := by
  cases h : t.typeIds.get? name with
  | some id => rw [intern_of_some h, h]
  | none =>
    rw [intern_of_none h]
    exact (Table.get?_set _ _ _ _).trans (if_pos rfl)

theorem symbolTypes_intern (t : TypeTables) (name : String) :
    (t.intern name).2.symbolTypes = t.symbolTypes := by
  unfold intern
  split <;> rfl

theorem sites_intern (t : TypeTables) (name : String) : (t.intern name).2.sites = t.sites := by
  unfold intern
  split <;> rfl

namespace Sound

theorem empty : Sound {} where
  typeIds := by simp
  size := rfl
  rows h := by simp at h
  symbolTypes h := by simp at h
  sites h := by simp at h

/-- A known name has a number below the count of types. -/
theorem lt_size (h : t.Sound) (hid : t.typeIds.get? name = some id) : id < t.typeNames.size :=
  (Array.getElem?_eq_some_iff.mp (h.typeIds.mp hid)).1

/-- **A new name** gets the next number, and a row for its supertypes. -/
theorem intern (h : t.Sound) (name : String) : (t.intern name).2.Sound := by
  cases hname : t.typeIds.get? name with
  | some id =>
    rw [intern_of_some hname]
    exact h
  | none =>
    rw [intern_of_none hname]
    constructor
    · intro name' id
      dsimp only
      rw [Table.get?_set, Array.getElem?_push]
      by_cases hnew : name = name'
      · subst hnew
        have hold : t.typeNames[id]? ≠ some name := fun hid => by
          rw [← h.typeIds, hname] at hid
          cases hid
        by_cases hid : id = t.typeNames.size
        · simp [hid]
        · simpa [hid, Ne.symm hid] using hold
      · rw [if_neg hnew, h.typeIds]
        by_cases hid : id = t.typeNames.size
        · simp [hid, hnew]
        · simp [hid]
    · dsimp only
      rw [Array.size_push, Array.size_push, h.size]
    · intro id row hrow
      dsimp only at hrow ⊢
      rw [Array.getElem?_push] at hrow
      rw [Array.size_push]
      split at hrow
      · cases hrow
        exact ⟨List.nodup_nil, fun sup hsup => absurd hsup List.not_mem_nil⟩
      · exact ⟨(h.rows hrow).1, fun sup hsup => Nat.lt_succ_of_lt ((h.rows hrow).2 sup hsup)⟩
    · intro i id hid
      dsimp only
      rw [Array.size_push]
      exact Nat.lt_succ_of_lt (h.symbolTypes hid)
    · exact h.sites

/-- **A supertype that is a type** may be added to any row. -/
theorem addTo (h : t.Sound) (hsup : sup < t.typeNames.size) (id : Nat) :
    (t.addTo id sup).Sound where
  typeIds := h.typeIds
  size := (Array.size_modify ..).trans h.size
  rows {i row} hrow := by
    unfold TypeTables.addTo at hrow
    dsimp only at hrow
    rw [Array.getElem?_modify] at hrow
    split at hrow
    · obtain ⟨row', hrow', rfl⟩ := Option.map_eq_some_iff.mp hrow
      obtain ⟨hnodup, hlt⟩ := h.rows hrow'
      split
      · exact ⟨hnodup, hlt⟩
      · rename_i hcontains
        have hnot : sup ∉ row' := fun hmem => hcontains (List.contains_iff_mem.mpr hmem)
        refine ⟨?_, fun s hs => ?_⟩
        · rw [List.nodup_append]
          refine ⟨hnodup, List.pairwise_singleton _ _, fun a ha b hb hab => hnot ?_⟩
          rw [← List.mem_singleton.mp hb, ← hab]
          exact ha
        · rcases List.mem_append.mp hs with hs | hs
          · exact hlt s hs
          · exact List.mem_singleton.mp hs ▸ hsup
    · exact h.rows hrow
  symbolTypes := h.symbolTypes
  sites := h.sites

theorem addSupertype (h : t.Sound) (id : Nat) (name : String) : (t.addSupertype id name).Sound :=
  (h.intern name).addTo ((h.intern name).lt_size (get?_typeIds_intern t name)) id

theorem addSupertypes (h : t.Sound) (id : Nat) (supertypes : List String) :
    (supertypes.foldl (fun t sup => t.addSupertype id sup) t).Sound := by
  induction supertypes generalizing t with
  | nil => exact h
  | cons sup supertypes ih => exact ih (h.addSupertype id sup)

/-- **A declaration keeps the tables sound**, also where it meets new names on its way. -/
theorem declare (h : t.Sound) (name : String) (supertypes : List String) :
    (t.declare name supertypes).2.Sound :=
  (h.intern name).addSupertypes _ supertypes

/-- **An allocation keeps the tables sound.** -/
theorem object (h : t.Sound) (type site : String) : (t.object type site).2.Sound := by
  unfold TypeTables.object
  split
  · exact h
  · have hintern := h.intern type
    refine ⟨hintern.typeIds, hintern.size, hintern.rows, ?_, ?_⟩
    · intro i id hid
      dsimp only at hid
      rw [Array.getElem?_push] at hid
      split at hid
      · cases hid
        exact hintern.lt_size (get?_typeIds_intern t type)
      · exact hintern.symbolTypes hid
    · intro site' symbol hsymbol
      dsimp only at hsymbol ⊢
      rw [Table.get?_set] at hsymbol
      rw [Array.size_push]
      split at hsymbol
      · cases hsymbol
        exact ⟨_, Nat.lt_succ_self _, rfl⟩
      · obtain ⟨i, hi, hsymbol⟩ := hintern.sites hsymbol
        exact ⟨i, Nat.lt_succ_of_lt hi, hsymbol⟩

end Sound

end TypeTables

end ValueFlow
