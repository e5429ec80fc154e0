import ValueFlow.Types.Registry

/-!
# What a registry learns

A registry only learns: types and objects keep their numbers, and a type keeps its supertypes
(`TypeRegistry.Grows`). So a request that was answered once is answered alike by every later
registry, and teaches it nothing (`declare_again`, `object_again`).

What a registry answers to filters depends on its tables alone (`TypeRegistry.Alike`).
-/

namespace ValueFlow

namespace TypeTables

/-- **The one has all that the other has**, by the same numbers. -/
structure Grows (t t' : TypeTables) : Prop where
  typeIds : ∀ {name id}, t.typeIds.get? name = some id → t'.typeIds.get? name = some id
  supertypes : ∀ {id : Nat} {row}, t.supertypes[id]? = some row →
    ∃ row', t'.supertypes[id]? = some row' ∧ ∀ sup ∈ row, sup ∈ row'
  symbolTypes : ∀ {i id : Nat}, t.symbolTypes[i]? = some id → t'.symbolTypes[i]? = some id
  sites : ∀ {site symbol}, t.sites.get? site = some symbol → t'.sites.get? site = some symbol

variable {s t t' t'' : TypeTables} {name type site : String} {id sup : Nat}

theorem Grows.refl (t : TypeTables) : t.Grows t where
  typeIds h := h
  supertypes {_ row} h := ⟨row, h, fun _ hsup => hsup⟩
  symbolTypes h := h
  sites h := h

theorem Grows.trans (h : t.Grows t') (h' : t'.Grows t'') : t.Grows t'' where
  typeIds hid := h'.typeIds (h.typeIds hid)
  supertypes hrow := by
    obtain ⟨row', hrow', hsub⟩ := h.supertypes hrow
    obtain ⟨row'', hrow'', hsub'⟩ := h'.supertypes hrow'
    exact ⟨row'', hrow'', fun sup hsup => hsub' sup (hsub sup hsup)⟩
  symbolTypes hid := h'.symbolTypes (h.symbolTypes hid)
  sites hsymbol := h'.sites (h.sites hsymbol)

/-! ## 1. Types -/

theorem grows_intern (t : TypeTables) (name : String) : t.Grows (t.intern name).2 := by
  cases h : t.typeIds.get? name with
  | some id =>
    rw [intern_of_some h]
    exact .refl t
  | none =>
    rw [intern_of_none h]
    constructor
    · intro name' id hid
      dsimp only
      rw [Table.get?_set, if_neg, hid]
      rintro rfl
      rw [h] at hid
      cases hid
    · intro id row hrow
      obtain ⟨hlt, rfl⟩ := Array.getElem?_eq_some_iff.mp hrow
      exact ⟨_, Array.getElem?_push_lt hlt, fun _ hsup => hsup⟩
    · exact fun hid => hid
    · exact fun hsymbol => hsymbol

theorem grows_addTo (t : TypeTables) (id sup : Nat) : t.Grows (t.addTo id sup) where
  typeIds h := h
  supertypes {i row} hrow := by
    unfold addTo
    dsimp only
    rw [Array.getElem?_modify, hrow]
    by_cases hid : id = i
    · refine ⟨_, by rw [if_pos hid]; rfl, fun s hs => ?_⟩
      dsimp only
      split
      · exact hs
      · exact List.mem_append_left _ hs
    · exact ⟨row, by rw [if_neg hid], fun s hs => hs⟩
  symbolTypes h := h
  sites h := h

theorem grows_addSupertype (t : TypeTables) (id : Nat) (name : String) :
    (t.intern name).2.Grows (t.addSupertype id name) :=
  grows_addTo _ id _

theorem grows_addSupertypes (id : Nat) (supertypes : List String) (t : TypeTables) :
    t.Grows (supertypes.foldl (fun t sup => t.addSupertype id sup) t) := by
  induction supertypes generalizing t with
  | nil => exact .refl t
  | cons name supertypes ih =>
    exact ((t.grows_intern name).trans (grows_addSupertype t id name)).trans (ih _)

theorem grows_declare (t : TypeTables) (name : String) (supertypes : List String) :
    t.Grows (t.declare name supertypes).2 :=
  (t.grows_intern name).trans (grows_addSupertypes _ supertypes _)

/-- A declaration answers the number of its type. -/
theorem get?_typeIds_declare (t : TypeTables) (name : String) (supertypes : List String) :
    (t.declare name supertypes).2.typeIds.get? name = some (t.declare name supertypes).1 :=
  (grows_addSupertypes _ supertypes _).typeIds (get?_typeIds_intern t name)

theorem grows_object (t : TypeTables) (type site : String) : t.Grows (t.object type site).2 := by
  unfold object
  split
  · exact .refl t
  · rename_i hnone
    refine (t.grows_intern type).trans
      ⟨fun h => h, fun {_ row} h => ⟨row, h, fun _ hs => hs⟩, ?_, ?_⟩
    · intro i id hid
      obtain ⟨hlt, rfl⟩ := Array.getElem?_eq_some_iff.mp hid
      exact Array.getElem?_push_lt hlt
    · intro site' symbol hsymbol
      dsimp only
      rw [Table.get?_set, if_neg, hsymbol]
      rintro rfl
      rw [sites_intern, hnone] at hsymbol
      cases hsymbol

end TypeTables

/-! ## 3. Registries -/

namespace TypeRegistry

/-- **The one registry knows all that the other knows**, by the same numbers. -/
def Grows (r r' : TypeRegistry) : Prop := r.tables.Grows r'.tables

/-- Two registries with the same types and objects. -/
def Alike (r r' : TypeRegistry) : Prop := r.tables = r'.tables

variable {r r' r'' s : TypeRegistry} {name type site : String} {id : Nat}

theorem Alike.refl (r : TypeRegistry) : r.Alike r := rfl

theorem Alike.symm (h : r.Alike r') : r'.Alike r := Eq.symm h

theorem Alike.trans (h : r.Alike r') (h' : r'.Alike r'') : r.Alike r'' := Eq.trans h h'

/-- Filters look at types and objects alone. -/
theorem Alike.admits (h : r.Alike r') (target : Nat) : r.admits target = r'.admits target := by
  unfold TypeRegistry.admits below
  rw [show r.tables = r'.tables from h]

theorem Alike.typeId? (h : r.Alike r') (name : String) : r.typeId? name = r'.typeId? name :=
  congrArg (fun t : TypeTables => t.typeIds.get? name) h

theorem Grows.refl (r : TypeRegistry) : r.Grows r := TypeTables.Grows.refl r.tables

theorem Grows.of_alike (h : r.Alike r') : r.Grows r' := by
  unfold Grows
  rw [show r.tables = r'.tables from h]
  exact .refl _

theorem Grows.of_eq (h : r' = r) : r.Grows r' := h ▸ .refl r'

theorem Grows.trans (h : r.Grows r') (h' : r'.Grows r'') : r.Grows r'' :=
  TypeTables.Grows.trans h h'

theorem Grows.typeId? (h : r.Grows r') (hid : r.typeId? name = some id) :
    r'.typeId? name = some id :=
  h.typeIds hid

theorem grows_declare (r : TypeRegistry) (name : String) (supertypes : List String) :
    r.Grows (r.declare name supertypes).2 :=
  r.tables.grows_declare name supertypes

theorem grows_object (r : TypeRegistry) (type site : String) : r.Grows (r.object type site).2 :=
  r.tables.grows_object type site

theorem alike_typeFilter (r : TypeRegistry) (name : String) :
    (r.typeFilter name).2.Alike r := by
  unfold typeFilter
  split
  · exact .refl r
  · split <;> rfl

/-- The filter for a type is for the number of the type. -/
theorem target_typeFilter (r : TypeRegistry) (name : String) :
    (r.typeFilter name).1.map TypeFilter.target = r.typeId? name := by
  unfold typeFilter
  split
  · rename_i h
    rw [h]
    rfl
  · rename_i target h
    rw [h]
    split
    · rename_i f hf
      have := List.find?_some hf
      simp only [decide_eq_true_eq] at this
      simp [this]
    · rfl

end TypeRegistry

end ValueFlow
