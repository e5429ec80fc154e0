import ValueFlow.Proofs.Types.Calls

/-!
# The numbers of types and objects

Types and objects are told apart by numbers, and a number that is stored somewhere is looked up
without a further question. The tables grow one by one, also in the middle of a declaration that
meets a new name. Still they have to stay in step: each stored number has to be one that was given
out, and has its place in each table that it is looked up in. And a number is given for good, above
all that of an object, which is asked for again with whatever type.

* `InStep`: the tables of a registry agree with the calls and with each other, and no lookup leaves
  them;
* `after_inStep`: they do so whatever was called.

A symbol has 32 bits. The objects are numbered without a limit, but there are no more symbols than
that, and different sites have different symbols as long as they suffice.
-/

namespace ValueFlow.TypeRegistry

variable {type site : String} {i : Nat}

/-! ## 1. Sites -/

/-- The sites in the order in which they were first asked for. -/
def sites (calls : List Call) : List String := (allocations calls).map Allocation.site

theorem nodup_sites (calls : List Call) : (sites calls).Nodup := by
  induction calls with
  | nil => exact List.nodup_nil
  | cons c earlier ih =>
    cases c with
    | object type site =>
      unfold sites allocations
      split
      · exact ih
      · rename_i hsite
        rw [List.map_append, List.map_singleton, ← List.concat_eq_append]
        exact ih.concat hsite
    | declare | typeFilter | reset => exact ih

/-- Sites that were asked for keep their places. -/
theorem allocations_begins (later earlier : List Call) :
    allocations earlier <+: allocations (later ++ earlier) := by
  induction later with
  | nil => exact List.prefix_rfl
  | cons c later ih =>
    cases c with
    | object type site =>
      rw [List.cons_append, allocations]
      split
      · exact ih
      · exact ih.trans (List.prefix_append _ _)
    | declare | typeFilter | reset => exact ih

/-- The first request for a site gives it its place. -/
theorem getElem?_allocations_first (later : List Call) (type : String) {earlier : List Call}
    (hfirst : site ∉ sites earlier) :
    (allocations (later ++ .object type site :: earlier))[(sites earlier).length]? =
      some ⟨site, type⟩ := by
  obtain ⟨more, hmore⟩ := allocations_begins later (.object type site :: earlier)
  have hnew : allocations (.object type site :: earlier) =
      allocations earlier ++ [⟨site, type⟩] := if_neg hfirst
  rw [← hmore, hnew]
  simp [sites]

end ValueFlow.TypeRegistry

namespace ValueFlow.TypeTables

open TypeRegistry (Climb Allocation)

variable {t : TypeTables} {site : String}

namespace Knows

variable {mentioned : List String} {declared : String → String → Prop}
  {allocated : List Allocation}

theorem object_fst_new (h : t.Knows mentioned declared allocated)
    (hsite : site ∉ allocated.map Allocation.site) (type : String) :
    (t.object type site).1 = UInt32.ofNat allocated.length := by
  unfold object
  rw [h.get?_sites_eq_none_iff.mpr hsite]
  dsimp only
  rw [symbolTypes_intern, h.size_symbolTypes]

/-- A symbol has a type if it is that of an allocated site. -/
theorem symbolType?_cases (h : t.Knows mentioned declared allocated) (s : Symbol) :
    t.symbolType? s = none ∧ allocated[s.toNat]? = none ∨
      ∃ id a, t.symbolType? s = some id ∧ allocated[s.toNat]? = some a ∧
        t.typeNames[id]? = some a.type := by
  unfold symbolType?
  by_cases hlt : s.toNat < allocated.length
  · have hlt' : s.toNat < t.symbolTypes.toList.length := by rwa [h.types.length_eq]
    have htype := h.types.get hlt' hlt
    rw [List.get_eq_getElem, Array.getElem_toList] at htype
    rw [Array.length_toList] at hlt'
    exact .inr ⟨_, _, Array.getElem?_eq_getElem hlt', List.getElem?_eq_getElem hlt, htype⟩
  · refine .inl ⟨Array.getElem?_eq_none ?_, List.getElem?_eq_none (by omega)⟩
    rw [h.size_symbolTypes]
    omega

/-- **The type of an object** is the one that its site was first asked for with. -/
theorem typeOf?_eq (h : t.Knows mentioned declared allocated) (s : Symbol) :
    t.typeOf? s = allocated[s.toNat]?.map Allocation.type := by
  unfold typeOf?
  obtain ⟨hnone, hnone'⟩ | ⟨id, a, hid, ha, hname⟩ := h.symbolType?_cases s
  · rw [hnone, hnone']
    rfl
  · rw [hid, ha, Option.bind_some, hname]
    rfl

end Knows

namespace Sound

/-- **The row that a declaration adds to is there**, whatever it has met before. -/
theorem declare_lt_size (h : t.Sound) (name : String) (before : List String) (sup : String) :
    (t.declare name before).1 < ((t.declare name before).2.intern sup).2.supertypes.size := by
  have hsound := (h.declare name before).intern sup
  have hid := (grows_intern _ sup).typeIds (get?_typeIds_declare t name before)
  exact hsound.size ▸ hsound.lt_size hid

theorem supertypes_lt_size (h : t.Sound) :
    ∀ row ∈ t.supertypes, row.Nodup ∧ ∀ sup ∈ row, sup < t.typeNames.size := by
  intro row hrow
  obtain ⟨i, hi⟩ := Array.mem_iff_getElem?.mp hrow
  exact h.rows hi

theorem symbolTypes_lt_size (h : t.Sound) : ∀ id ∈ t.symbolTypes, id < t.typeNames.size := by
  intro id hid
  obtain ⟨i, hi⟩ := Array.mem_iff_getElem?.mp hid
  exact h.symbolTypes hi

/-- **A search that starts at a type meets only types.** -/
theorem climbs (h : t.Sound) {sub sup : Nat} {c : Climb} (hsub : sub < t.typeNames.size)
    (hpasses : Climb.Passes t.supertypes sup ⟨[sub], []⟩ c) :
    ∀ i ∈ c.waiting, i < t.supertypes.size :=
  fun i hi => (hpasses.leads i hi).lt_size h.known (h.size ▸ hsub)

end Sound

end ValueFlow.TypeTables

namespace ValueFlow.TypeRegistry

section Objects

variable {calls : List Call} {site : String} {i : Nat}

/-- **A site keeps its object**, with whatever type it is asked for again. -/
theorem object_of_site (hsite : (sites calls)[i]? = some site) (type : String) :
    (after calls).object type site = (UInt32.ofNat i, after calls) := by
  obtain ⟨hsymbol, htables⟩ := Prod.ext_iff.mp ((knows_after calls).object_known hsite type)
  exact Prod.ext hsymbol (TypeRegistry.ext htables rfl rfl)

theorem toNat_object_of_site (hsize : (sites calls).length ≤ UInt32.size)
    (hsite : (sites calls)[i]? = some site) (type : String) :
    ((after calls).object type site).1.toNat = i := by
  obtain ⟨hlt, -⟩ := List.getElem?_eq_some_iff.mp hsite
  rw [object_of_site hsite]
  exact UInt32.toNat_ofNat_of_lt' (Nat.lt_of_lt_of_le hlt hsize)

/-- **The first request for a site settles its symbol and its type.** -/
theorem object_of_first (later : List Call) (type : String) {earlier : List Call}
    (hfirst : site ∉ sites earlier) (hcalls : calls = later ++ .object type site :: earlier)
    (type' : String) :
    ((after calls).object type' site).1 = ((after earlier).object type site).1 ∧
      ((sites calls).length ≤ UInt32.size →
        (after calls).typeOf? ((after calls).object type' site).1 = some type) := by
  have hplace : (allocations calls)[(sites earlier).length]? = some ⟨site, type⟩ :=
    hcalls ▸ getElem?_allocations_first later type hfirst
  have hsite : (sites calls)[(sites earlier).length]? = some site := by
    rw [sites, List.getElem?_map, hplace]
    rfl
  have hsymbol : ((after earlier).object type site).1 = UInt32.ofNat (allocations earlier).length :=
    (knows_after earlier).object_fst_new hfirst type
  refine ⟨?_, fun hsize => ?_⟩
  · rw [object_of_site hsite, hsymbol, sites, List.length_map]
  · unfold typeOf?
    rw [(knows_after calls).typeOf?_eq, toNat_object_of_site hsize hsite, hplace]
    rfl

end Objects

/-! ## 2. The tables -/

/-- **The tables of a registry are in step** with the calls and with each other. -/
structure InStep (calls : List Call) (r : TypeRegistry) : Prop where
  /-- types are numbered in the order in which they were first mentioned -/
  names : r.tables.typeNames.toList = (mentions calls).eraseDups
  /-- numbers and names correspond to each other -/
  typeIds : ∀ name i,
    r.tables.typeIds.get? name = some i ↔ (mentions calls).eraseDups[i]? = some name
  /-- a declaration answers the number of its type -/
  answers : ∀ name supertypes,
    (r.declare name supertypes).2.typeId? name = some (r.declare name supertypes).1
  /-- each type has its row of supertypes -/
  rows : r.tables.supertypes.size = r.tables.typeNames.size
  /-- a supertype is a type, and is stored once -/
  supertypes : ∀ row ∈ r.tables.supertypes,
    row.Nodup ∧ ∀ sup ∈ row, sup < r.tables.typeNames.size
  /-- in the midst of a declaration, the row that it adds to is there -/
  adding : ∀ name before sup, (r.tables.declare name before).1 <
    ((r.tables.declare name before).2.intern sup).2.supertypes.size
  /-- whatever a search for a type meets has a row of supertypes -/
  climbs : ∀ {sub sup c}, sub < r.tables.typeNames.size →
    Climb.Passes r.tables.supertypes sup ⟨[sub], []⟩ c →
      ∀ i ∈ c.waiting, i < r.tables.supertypes.size
  /-- the type of an object is a type -/
  symbolTypes : ∀ id ∈ r.tables.symbolTypes, id < r.tables.typeNames.size
  /-- there are as many objects as sites -/
  count : r.tables.symbolTypes.size = (sites calls).length
  /-- objects are numbered in the order in which their sites were first asked for -/
  sites : ∀ site symbol, r.tables.sites.get? site = some symbol ↔
    ∃ i, (sites calls)[i]? = some site ∧ symbol = UInt32.ofNat i
  /-- no site has two objects -/
  distinct : (TypeRegistry.sites calls).Nodup
  /-- a site that was asked for has the object with its number, with whatever type it is asked for
  again, and asking tells nothing new -/
  objects : ∀ {i site}, (TypeRegistry.sites calls)[i]? = some site →
    ∀ type, r.object type site = (UInt32.ofNat i, r)
  /-- so the symbols of the sites are the numbers from zero on, while there are enough -/
  symbols : (TypeRegistry.sites calls).length ≤ UInt32.size →
    ∀ {i site}, (TypeRegistry.sites calls)[i]? = some site →
      ∀ type, (r.object type site).1.toNat = i
  /-- the first request for a site settles its symbol and its type -/
  lasting : ∀ {later type site earlier}, calls = later ++ .object type site :: earlier →
    site ∉ TypeRegistry.sites earlier → ∀ type',
      (r.object type' site).1 = ((after earlier).object type site).1 ∧
      ((TypeRegistry.sites calls).length ≤ UInt32.size →
        r.typeOf? (r.object type' site).1 = some type)

/-- **The tables stay in step**, whatever is called. -/
theorem after_inStep (calls : List Call) : (after calls).InStep calls := by
  have hknows := knows_after calls
  exact
    { names := hknows.names
      typeIds := fun name i => by
        rw [hknows.typeIds, ← hknows.names, Array.getElem?_toList]
      answers := (after calls).tables.get?_typeIds_declare
      rows := hknows.size
      supertypes := hknows.supertypes_lt_size
      adding := hknows.declare_lt_size
      climbs := hknows.climbs
      symbolTypes := hknows.symbolTypes_lt_size
      count := by rw [hknows.size_symbolTypes, TypeRegistry.sites, List.length_map]
      sites := fun _ _ => hknows.symbols
      distinct := nodup_sites calls
      objects := object_of_site
      symbols := fun hsize _ _ hsite => toNat_object_of_site hsize hsite
      lasting := fun {later type _ _} hcalls hfirst => object_of_first later type hfirst hcalls }

/-- A site is asked for as a circle, and later as a text, which does not make texts known. -/
def retyped : List Call :=
  [.object "Text" "a", .declare "Circle" ["Shape"], .object "Circle" "a"]

/-- A third type does not change the object either: its site stays that of a circle. -/
theorem after_inStep_retyped :
    (sites retyped).length ≤ UInt32.size ∧
    ((after retyped).object "Box" "a").1 = ((after []).object "Circle" "a").1 ∧
    (after retyped).typeOf? ((after retyped).object "Box" "a").1 = some "Circle" := by
  have hsize : (sites retyped).length ≤ UInt32.size := by decide
  have hsplit : retyped = [.object "Text" "a", .declare "Circle" ["Shape"]] ++
    .object "Circle" "a" :: [] := rfl
  obtain ⟨hsame, htype⟩ := (after_inStep retyped).lasting hsplit (by decide) "Box"
  exact ⟨hsize, hsame, htype hsize⟩

end ValueFlow.TypeRegistry
