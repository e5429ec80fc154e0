import ValueFlow.Proofs.Types.Numbering

/-!
# Subtypes and type filters

A type is below another one if declarations lead from the one to the other. The declarations may
come in any order, be repeated, and run in circles. A filter for a type is made once, and goes by
what was declared and allocated when it is applied.

* `Under`: declarations lead from one type to another;
* `TypeTables.Knows.leads_iff`: the ways up in the tables are these;
* `subtyping_decided`: subtyping is decided by searches that end, and filters go by it.
-/

namespace ValueFlow.TypeRegistry

/-- **Declarations lead from one type to another**, by any number of steps. -/
def Under (calls : List Call) : String → String → Prop := Relation.ReflTransGen (Declared calls)

/-! ## 1. Ways up -/

end ValueFlow.TypeRegistry

namespace ValueFlow.TypeTables.Knows

open TypeRegistry (Climb Allocation)

variable {mentioned : List String} {declared : String → String → Prop}
  {allocated : List Allocation} {t : TypeTables} {sub sup : String} {i j : Nat}

theorem reaches_of_leads (h : t.Knows mentioned declared allocated)
    (hi : t.typeNames[i]? = some sub) (hleads : Climb.Leads t.supertypes i j)
    (hj : t.typeNames[j]? = some sup) : Relation.ReflTransGen declared sub sup := by
  induction hleads generalizing sup with
  | refl =>
    rw [hi] at hj
    exact Option.some.inj hj ▸ .refl
  | tail hleads hmem ih =>
    rename_i k j
    have hlt : k < t.typeNames.size := h.size ▸ lt_size_of_mem_above hmem
    have hk := Array.getElem?_eq_getElem hlt
    exact (ih hk).tail (h.declared.mpr ⟨k, j, hk, hj, hmem⟩)

theorem leads_of_reaches (h : t.Knows mentioned declared allocated)
    (hi : t.typeNames[i]? = some sub) (hreaches : Relation.ReflTransGen declared sub sup)
    (hj : t.typeNames[j]? = some sup) : Climb.Leads t.supertypes i j := by
  induction hreaches generalizing j with
  | refl => exact h.unique hi hj ▸ .refl
  | tail _ hdeclared ih =>
    obtain ⟨k, j', hk, hj', hmem⟩ := h.declared.mp hdeclared
    exact h.unique hj' hj ▸ (ih hk).tail hmem

/-- **The ways up in the tables are those that were declared.** -/
theorem leads_iff (h : t.Knows mentioned declared allocated) (hi : t.typeNames[i]? = some sub)
    (hj : t.typeNames[j]? = some sup) :
    Climb.Leads t.supertypes i j ↔ Relation.ReflTransGen declared sub sup :=
  ⟨fun hleads => h.reaches_of_leads hi hleads hj, fun hreaches => h.leads_of_reaches hi hreaches hj⟩

end ValueFlow.TypeTables.Knows

namespace ValueFlow.TypeRegistry

section Knowing

variable {r : TypeRegistry} {mentioned : List String} {declared : String → String → Prop}
  {allocated : List Allocation} {sub sup name : String} {target : Nat}

theorem isSubtype_eq_true_iff (h : r.tables.Knows mentioned declared allocated) :
    r.isSubtype sub sup = true ↔
      sub ∈ mentioned ∧ sup ∈ mentioned ∧ Relation.ReflTransGen declared sub sup := by
  rw [← h.mem_typeNames, ← h.mem_typeNames]
  unfold isSubtype
  cases hsub : r.typeId? sub with
  | none => simp [h.get?_typeIds_eq_none_iff.mp hsub]
  | some i =>
    cases hsup : r.typeId? sup with
    | none => simp [h.get?_typeIds_eq_none_iff.mp hsup]
    | some j =>
      have hi := h.typeIds.mp hsub
      have hj := h.typeIds.mp hsup
      dsimp only
      rw [below_eq_true_iff, h.leads_iff hi hj]
      exact ⟨fun hreaches => ⟨Array.mem_toList_iff.mpr (Array.mem_of_getElem? hi),
        Array.mem_toList_iff.mpr (Array.mem_of_getElem? hj), hreaches⟩,
        fun hreaches => hreaches.2.2⟩

/-- **What a filter admits** are the objects of the types below its own. -/
theorem admits_eq_true_iff (h : r.tables.Knows mentioned declared allocated)
    (htarget : r.tables.typeNames[target]? = some name) {s : Symbol} :
    r.admits target s = true ↔
      ∃ a, allocated[s.toNat]? = some a ∧ Relation.ReflTransGen declared a.type name := by
  unfold admits
  obtain ⟨hnone, hnone'⟩ | ⟨id, a, hid, ha, hname⟩ := h.symbolType?_cases s
  · simp [hnone, hnone']
  · rw [hid, ha]
    dsimp only
    rw [below_eq_true_iff, h.leads_iff hname htarget]
    simp

end Knowing

/-! ## 2. Filters -/

/-- A filter stays a filter for the type that it was made for. -/
theorem typeNames_of_typeFilter {later earlier : List Call} {f : TypeFilter} {name : String}
    (h : ((after earlier).typeFilter name).1 = some f) :
    (after (later ++ earlier)).tables.typeNames[f.target]? = some name := by
  have htarget : (after earlier).typeId? name = some f.target := by
    rw [← target_typeFilter, h]
    rfl
  exact (after (later ++ earlier)).sound.typeIds.mp ((grows_after later earlier).typeId? htarget)

/-- **Subtyping is decided, and filters go by it**, whatever was declared and allocated. A name is a
subtype of another one if both are known and declarations lead from the one to the other; the search
for this ends within two more turns than there are direct supertypes. And a filter that was
obtained at any time keeps, in their order, those tokens that are objects by now whose types are
below its own by now. -/
theorem subtyping_decided (calls : List Call) :
    (∀ sub sup, (after calls).isSubtype sub sup = true ↔
      sub ∈ mentions calls ∧ sup ∈ mentions calls ∧ Under calls sub sup) ∧
    (∀ sub sup i j, (after calls).typeId? sub = some i → (after calls).typeId? sup = some j →
      Climb.turns (after calls).tables.supertypes j
        (2 + ((after calls).tables.supertypes.toList.map List.length).foldr (· + ·) 0) ⟨[i], []⟩ =
          .inl ((after calls).isSubtype sub sup)) ∧
    ∀ later earlier name f, calls = later ++ earlier →
      ((after earlier).typeFilter name).1 = some f → ∀ tokens : TokenSet Symbol,
        ((after calls).applyFilter f tokens).elements.Sublist tokens.elements ∧
        ∀ s, s ∈ (after calls).applyFilter f tokens ↔
          s ∈ tokens ∧ ∃ a, (allocations calls)[s.toNat]? = some a ∧ Under calls a.type name := by
  have hknows := knows_after calls
  refine ⟨fun sub sup => isSubtype_eq_true_iff hknows, fun sub sup i j hi hj => ?_, ?_⟩
  · have hends := Climb.turns_effort (after calls).tables.supertypes j ⟨[i], []⟩
    rw [Climb.effort_start] at hends
    have hsame : (after calls).isSubtype sub sup =
        Climb.run (after calls).tables.supertypes j ⟨[i], []⟩ := by
      unfold isSubtype
      rw [hi, hj]
      rfl
    rw [hsame, ← hends]
    congr 1
    omega
  · rintro later earlier name f rfl hf tokens
    refine ⟨List.filter_sublist, fun s => ?_⟩
    unfold applyFilter
    rw [SortedSet.mem_filter, admits_eq_true_iff hknows (typeNames_of_typeFilter hf)]
    exact Iff.rfl

/-- A shape is declared, and a circle is allocated that is not known as a shape. -/
def shapesAtFirst : List Call := [.object "Circle" "a", .declare "Shape" ["Object"]]

/-- Circles become shapes, shapes and objects stand above each other, and more is allocated. -/
def shapesLater : List Call :=
  [.object "Text" "c", .object "Circle" "b", .declare "Object" ["Shape"],
    .declare "Circle" ["Shape"]]

/-- The filter for shapes was made before circles were shapes, and keeps both of them. -/
theorem subtyping_decided_shapes :
    ((after shapesAtFirst).typeFilter "Shape").1 = some ⟨0, 0⟩ ∧
    (after shapesAtFirst).isSubtype "Circle" "Shape" = false ∧
    (after (shapesLater ++ shapesAtFirst)).isSubtype "Circle" "Object" = true ∧
    Climb.turns (after (shapesLater ++ shapesAtFirst)).tables.supertypes 1 5 ⟨[2], []⟩ = .inl true ∧
    1 ∈ (after (shapesLater ++ shapesAtFirst)).applyFilter ⟨0, 0⟩ (.ofList [2, 1, 7]) ∧
    2 ∉ (after (shapesLater ++ shapesAtFirst)).applyFilter ⟨0, 0⟩ (.ofList [2, 1, 7]) := by
  have hfilter : ((after shapesAtFirst).typeFilter "Shape").1 = some ⟨0, 0⟩ := by decide +kernel
  obtain ⟨hsubtype, hends, hfilters⟩ := subtyping_decided (shapesLater ++ shapesAtFirst)
  obtain ⟨-, hmem⟩ := hfilters shapesLater shapesAtFirst "Shape" _ rfl hfilter (.ofList [2, 1, 7])
  have hshape : Declared (shapesLater ++ shapesAtFirst) "Circle" "Shape" :=
    ⟨["Shape"], by decide, by decide⟩
  have hobject : Declared (shapesLater ++ shapesAtFirst) "Shape" "Object" :=
    ⟨["Object"], by decide, by decide⟩
  have hbelow := (hsubtype "Circle" "Object").mpr
    ⟨by decide, by decide, .tail (.single hshape) hobject⟩
  have hsum : ((after (shapesLater ++ shapesAtFirst)).tables.supertypes.toList.map
      List.length).foldr (· + ·) 0 = 3 := by decide +kernel
  have hturns := hends "Circle" "Object" 2 1 (by decide +kernel) (by decide +kernel)
  rw [hsum, hbelow] at hturns
  refine ⟨hfilter, by decide +kernel, hbelow, hturns, ?_, fun hkept => ?_⟩
  · exact (hmem 1).mpr ⟨by decide, ⟨"b", "Circle"⟩, by decide, .single hshape⟩
  · obtain ⟨-, a, ha, hunder⟩ := (hmem 2).mp hkept
    obtain rfl : a = ⟨"c", "Text"⟩ := Option.some.inj (ha.symm.trans (by decide))
    rcases hunder.cases_head with hsame | ⟨_, ⟨supertypes, hcall, -⟩, -⟩
    · exact absurd hsame (by decide)
    · simp [shapesLater, shapesAtFirst] at hcall

end ValueFlow.TypeRegistry
