import Mathlib.Data.List.Forall2
import ValueFlow.Proofs.FirstOccurrences
import ValueFlow.Proofs.Types.Climbing
import ValueFlow.Proofs.Types.Growth

/-!
# What a registry was told

A registry hears of types by declarations, where the supertypes may not be known so far, and by the
objects that are asked for. What it knows can be read off the calls: the types are numbered as they
were first mentioned, the objects as their sites were first asked for, and an object keeps the type
that it was asked for with at first. Filters and resets tell it nothing.

* `mentions`, `allocations`, `Declared`: what the calls tell;
* `TypeTables.Knows`: the tables hold just this, each of them for itself;
* `Knows.intern`, `Knows.addSupertype`, `Knows.declare`, `Knows.object_new`: what one call adds;
* `knows_after`: whatever was called, the registry knows what it was told.
-/

namespace ValueFlow

namespace TypeRegistry

/-! ## 1. Calls -/

/-- **A call on a registry.** -/
inductive Call where
  | declare (name : String) (supertypes : List String)
  | object (type site : String)
  | typeFilter (name : String)
  | reset
  deriving DecidableEq, Repr

def call (r : TypeRegistry) : Call → TypeRegistry
  | .declare name supertypes => (r.declare name supertypes).2
  | .object type site => (r.object type site).2
  | .typeFilter name => (r.typeFilter name).2
  | .reset => r.reset

/-- **The registry after some calls** on a new one, the last call first. -/
def after : List Call → TypeRegistry
  | [] => .empty
  | c :: earlier => (after earlier).call c

/-- A site, and the type that it was first asked for with. -/
structure Allocation where
  site : String
  type : String
  deriving DecidableEq, Repr

/-- **The sites in the order in which they were first asked for.** -/
def allocations : List Call → List Allocation
  | [] => []
  | .object type site :: earlier =>
    if site ∈ (allocations earlier).map Allocation.site then allocations earlier
    else allocations earlier ++ [⟨site, type⟩]
  | _ :: earlier => allocations earlier

/-- **The names of types as they were mentioned**, repetitions included: in declarations, first the
type and then its supertypes, and where a site was asked for that was not known so far. -/
def mentions : List Call → List String
  | [] => []
  | .declare name supertypes :: earlier => mentions earlier ++ name :: supertypes
  | .object type site :: earlier =>
    if site ∈ (allocations earlier).map Allocation.site then mentions earlier
    else mentions earlier ++ [type]
  | _ :: earlier => mentions earlier

/-- One type was declared with the other as a direct supertype. -/
def Declared (calls : List Call) (sub sup : String) : Prop :=
  ∃ supertypes, .declare sub supertypes ∈ calls ∧ sup ∈ supertypes

theorem grows_call (r : TypeRegistry) (c : Call) : r.Grows (r.call c) := by
  cases c with
  | declare name supertypes => exact grows_declare r name supertypes
  | object type site => exact grows_object r type site
  | typeFilter name => exact .of_alike (alike_typeFilter r name).symm
  | reset => exact .of_alike rfl

theorem grows_after (later earlier : List Call) :
    (after earlier).Grows (after (later ++ earlier)) := by
  induction later with
  | nil => exact .refl _
  | cons c later ih => exact ih.trans (grows_call _ c)

end TypeRegistry

namespace TypeTables

open TypeRegistry (Climb Allocation)

variable {t t' : TypeTables} {name type site : String} {id sup i j : Nat}

/-! ## 2. Names -/

namespace Sound

theorem get?_typeIds_eq_none_iff (h : t.Sound) :
    t.typeIds.get? name = none ↔ name ∉ t.typeNames.toList := by
  rw [List.mem_iff_getElem?, Option.eq_none_iff_forall_ne_some, not_exists]
  refine forall_congr' fun id => not_congr ?_
  rw [Array.getElem?_toList]
  exact h.typeIds

/-- A name has one number. -/
theorem unique (h : t.Sound) (hi : t.typeNames[i]? = some name) (hj : t.typeNames[j]? = some name) :
    i = j :=
  Option.some.inj ((h.typeIds.mpr hi).symm.trans (h.typeIds.mpr hj))

/-- What is known by its number stays known by it when more is learned. -/
theorem getElem?_typeNames (h : t.Sound) (h' : t'.Sound) (hgrows : t.Grows t')
    (hi : i < t.typeNames.size) : t'.typeNames[i]? = t.typeNames[i]? := by
  have hname := Array.getElem?_eq_getElem hi
  rw [hname]
  exact h'.typeIds.mp (hgrows.typeIds (h.typeIds.mpr hname))

theorem typeNames_intern (h : t.Sound) (name : String) :
    (t.intern name).2.typeNames.toList =
      if name ∈ t.typeNames.toList then t.typeNames.toList else t.typeNames.toList ++ [name] := by
  cases hid : t.typeIds.get? name with
  | some id =>
    have hmem : name ∈ t.typeNames.toList :=
      Array.mem_toList_iff.mpr (Array.mem_of_getElem? (h.typeIds.mp hid))
    rw [intern_of_some hid, if_pos hmem]
  | none =>
    rw [intern_of_none hid, if_neg (h.get?_typeIds_eq_none_iff.mp hid)]
    exact Array.toList_push

/-- What was interned is known by its number. -/
theorem getElem?_intern (h : t.Sound) (name : String) :
    (t.intern name).2.typeNames[(t.intern name).1]? = some name :=
  (h.intern name).typeIds.mp (get?_typeIds_intern t name)

end Sound

/-! ## 3. Supertypes -/

section Supertypes

open TypeRegistry.Climb

theorem lt_size_of_mem_above {rows : Array (List Nat)} (h : j ∈ above rows i) : i < rows.size := by
  by_contra hlt
  rw [above_of_size_le (Nat.le_of_not_lt hlt)] at h
  exact List.not_mem_nil h

/-- A new type has no supertypes. -/
theorem above_intern (t : TypeTables) (name : String) (i : Nat) :
    above (t.intern name).2.supertypes i = above t.supertypes i := by
  unfold intern
  split
  · rfl
  · unfold above
    dsimp only
    rw [Array.getElem?_push]
    split
    · rename_i hi
      rw [hi, Array.getElem?_eq_none (Nat.le_refl _)]
      rfl
    · rfl

theorem above_addTo (hid : id < t.supertypes.size) (sup i : Nat) :
    above (t.addTo id sup).supertypes i =
      if i = id ∧ sup ∉ above t.supertypes i then above t.supertypes i ++ [sup]
      else above t.supertypes i := by
  unfold above addTo
  dsimp only
  rw [Array.getElem?_modify]
  by_cases hi : i = id
  · subst hi
    by_cases hsup : sup ∈ t.supertypes[i]
    · simp [hid, hsup]
    · simp [hid, hsup]
  · simp [hi, Ne.symm hi]

theorem mem_above_addTo (hid : id < t.supertypes.size) :
    j ∈ above (t.addTo id sup).supertypes i ↔ j ∈ above t.supertypes i ∨ i = id ∧ j = sup := by
  rw [above_addTo hid]
  split
  · rename_i h
    simp [h.1]
  · rename_i h
    refine ⟨.inl, ?_⟩
    rintro (hj | ⟨hi, rfl⟩)
    · exact hj
    · exact not_not.mp fun hj => h ⟨hi, hj⟩

/-- Whatever is stored as a supertype is a type. -/
theorem Sound.known (h : t.Sound) : ∀ i, ∀ j ∈ above t.supertypes i, j < t.supertypes.size := by
  intro i j hj
  have hlt := lt_size_of_mem_above hj
  have hrow := Array.getElem?_eq_getElem hlt
  have habove : above t.supertypes i = t.supertypes[i] := by
    unfold above
    rw [hrow]
    rfl
  rw [h.size]
  exact (h.rows hrow).2 j (habove ▸ hj)

end Supertypes

/-! ## 4. One call -/

/-- **The tables hold** the mentioned names by their numbers, the declared supertypes, and the
allocated sites with their types. -/
structure Knows (mentioned : List String) (declared : String → String → Prop)
    (allocated : List Allocation) (t : TypeTables) : Prop extends Sound t where
  names : t.typeNames.toList = mentioned.eraseDups
  declared : ∀ {sub sup}, declared sub sup ↔ ∃ i j : Nat, t.typeNames[i]? = some sub ∧
    t.typeNames[j]? = some sup ∧ j ∈ Climb.above t.supertypes i
  types : List.Forall₂ (fun id a => t.typeNames[id]? = some a.type) t.symbolTypes.toList allocated
  symbols : ∀ {site symbol}, t.sites.get? site = some symbol ↔
    ∃ i, (allocated.map Allocation.site)[i]? = some site ∧ symbol = UInt32.ofNat i

namespace Knows

variable {mentioned : List String} {declared : String → String → Prop}
  {allocated : List Allocation}

theorem mem_typeNames (h : t.Knows mentioned declared allocated) :
    name ∈ t.typeNames.toList ↔ name ∈ mentioned := by
  rw [h.names, List.mem_eraseDups]

theorem size_symbolTypes (h : t.Knows mentioned declared allocated) :
    t.symbolTypes.size = allocated.length := by
  rw [← h.types.length_eq, Array.length_toList]

/-- A supertype that is stored keeps the names of both sides. -/
theorem getElem?_typeNames_edge (h : t.Knows mentioned declared allocated) (h' : t'.Sound)
    (hgrows : t.Grows t') (hmem : j ∈ Climb.above t.supertypes i) :
    t'.typeNames[i]? = t.typeNames[i]? ∧ t'.typeNames[j]? = t.typeNames[j]? := by
  have hi := lt_size_of_mem_above hmem
  have hj := h.known i j hmem
  rw [h.size] at hi hj
  exact ⟨h.getElem?_typeNames h' hgrows hi, h.getElem?_typeNames h' hgrows hj⟩

theorem types_of_grows (h : t.Knows mentioned declared allocated) (h' : t'.Sound)
    (hgrows : t.Grows t') :
    List.Forall₂ (fun id a => t'.typeNames[id]? = some a.type) t.symbolTypes.toList allocated := by
  refine h.types.imp fun id a htype => ?_
  obtain ⟨hlt, -⟩ := Array.getElem?_eq_some_iff.mp htype
  rw [h.getElem?_typeNames h' hgrows hlt, htype]

theorem intern (h : t.Knows mentioned declared allocated) (name : String) :
    (t.intern name).2.Knows (mentioned ++ [name]) declared allocated := by
  have hsound := h.toSound.intern name
  have hgrows := t.grows_intern name
  refine ⟨hsound, ?_, fun {sub sup} => ?_, ?_, ?_⟩
  · rw [h.typeNames_intern, eraseDups_concat, h.names]
    simp only [List.mem_eraseDups]
  · rw [h.declared]
    refine exists_congr fun i => exists_congr fun j => ?_
    rw [above_intern]
    refine ⟨fun ⟨hi, hj, hmem⟩ => ?_, fun ⟨hi, hj, hmem⟩ => ?_⟩
    · obtain ⟨hsub, hsup⟩ := h.getElem?_typeNames_edge hsound hgrows hmem
      exact ⟨hsub.trans hi, hsup.trans hj, hmem⟩
    · obtain ⟨hsub, hsup⟩ := h.getElem?_typeNames_edge hsound hgrows hmem
      exact ⟨hsub.symm.trans hi, hsup.symm.trans hj, hmem⟩
  · rw [symbolTypes_intern]
    exact h.types_of_grows hsound hgrows
  · rw [sites_intern]
    exact h.symbols

/-- A supertype whose number is known is added to a type. -/
theorem addTo {sub super : String} (h : t.Knows mentioned declared allocated)
    (hid : t.typeNames[id]? = some sub) (hsup : t.typeNames[sup]? = some super) :
    (t.addTo id sup).Knows mentioned (fun a b => declared a b ∨ a = sub ∧ b = super) allocated := by
  have hlt : id < t.supertypes.size := h.size ▸ (Array.getElem?_eq_some_iff.mp hid).1
  refine ⟨h.toSound.addTo (Array.getElem?_eq_some_iff.mp hsup).1 id, h.names, fun {a b} => ?_,
    h.types, h.symbols⟩
  rw [h.declared]
  simp only [mem_above_addTo hlt]
  constructor
  · rintro (⟨i, j, hi, hj, hmem⟩ | ⟨rfl, rfl⟩)
    · exact ⟨i, j, hi, hj, .inl hmem⟩
    · exact ⟨id, sup, hid, hsup, .inr ⟨rfl, rfl⟩⟩
  · rintro ⟨i, j, hi, hj, hmem | ⟨rfl, rfl⟩⟩
    · exact .inl ⟨i, j, hi, hj, hmem⟩
    · exact .inr ⟨Option.some.inj (hi.symm.trans hid), Option.some.inj (hj.symm.trans hsup)⟩

theorem addSupertype {sub : String} (h : t.Knows mentioned declared allocated)
    (hid : t.typeNames[id]? = some sub) (super : String) :
    (t.addSupertype id super).Knows (mentioned ++ [super])
      (fun a b => declared a b ∨ a = sub ∧ b = super) allocated := by
  obtain ⟨hlt, -⟩ := Array.getElem?_eq_some_iff.mp hid
  have hid' : (t.intern super).2.typeNames[id]? = some sub :=
    (h.getElem?_typeNames (h.toSound.intern super) (t.grows_intern super) hlt).trans hid
  exact (h.intern super).addTo hid' (h.getElem?_intern super)

/-- Only what is meant counts, not how it is put. -/
theorem declared_congr {declared' : String → String → Prop}
    (h : t.Knows mentioned declared allocated) (hsame : ∀ a b, declared' a b ↔ declared a b) :
    t.Knows mentioned declared' allocated :=
  ⟨h.toSound, h.names, (hsame _ _).trans h.declared, h.types, h.symbols⟩

theorem addSupertypes (h : t.Knows mentioned declared allocated)
    (hid : t.typeNames[id]? = some name) (supertypes : List String) :
    (supertypes.foldl (fun t sup => t.addSupertype id sup) t).Knows (mentioned ++ supertypes)
      (fun a b => declared a b ∨ a = name ∧ b ∈ supertypes) allocated := by
  induction supertypes generalizing t mentioned declared with
  | nil =>
    rw [List.append_nil]
    exact h.declared_congr fun a b => by simp
  | cons sup supertypes ih =>
    obtain ⟨hlt, -⟩ := Array.getElem?_eq_some_iff.mp hid
    have hgrows := (t.grows_intern sup).trans (grows_addSupertype t id sup)
    have hmore := h.addSupertype hid sup
    have hid' := (h.getElem?_typeNames hmore.toSound hgrows hlt).trans hid
    have hall := ih hmore hid'
    rw [List.append_assoc, List.singleton_append] at hall
    refine hall.declared_congr fun a b => ?_
    rw [List.mem_cons, or_assoc, and_or_left]

/-- **A declaration** mentions the type, then its supertypes. -/
theorem declare (h : t.Knows mentioned declared allocated) (name : String)
    (supertypes : List String) :
    (t.declare name supertypes).2.Knows (mentioned ++ name :: supertypes)
      (fun a b => declared a b ∨ a = name ∧ b ∈ supertypes) allocated := by
  have hmore := (h.intern name).addSupertypes (h.getElem?_intern name) supertypes
  rw [List.append_assoc, List.singleton_append] at hmore
  exact hmore

theorem get?_sites_eq_none_iff (h : t.Knows mentioned declared allocated) :
    t.sites.get? site = none ↔ site ∉ allocated.map Allocation.site := by
  rw [Option.eq_none_iff_forall_ne_some, List.mem_iff_getElem?]
  constructor
  · rintro hnone ⟨i, hi⟩
    exact hnone _ (h.symbols.mpr ⟨i, hi, rfl⟩)
  · intro hnone symbol hsymbol
    obtain ⟨i, hi, -⟩ := h.symbols.mp hsymbol
    exact hnone ⟨i, hi⟩

/-- **An object of a new site** mentions its type. -/
theorem object_new (h : t.Knows mentioned declared allocated)
    (hsite : site ∉ allocated.map Allocation.site) (type : String) :
    (t.object type site).2.Knows (mentioned ++ [type]) declared (allocated ++ [⟨site, type⟩]) := by
  have hintern := h.intern type
  have hsound := h.toSound.object type site
  have hlast : (t.intern type).2.symbolTypes.size = (allocated.map Allocation.site).length := by
    rw [hintern.size_symbolTypes, List.length_map]
  unfold object at hsound ⊢
  rw [h.get?_sites_eq_none_iff.mpr hsite] at hsound ⊢
  refine ⟨hsound, hintern.names, hintern.declared, ?_, fun {site' symbol} => ?_⟩
  · dsimp only
    rw [Array.toList_push]
    exact List.rel_append hintern.types (.cons (h.getElem?_intern type) .nil)
  · dsimp only
    rw [Table.get?_set, List.map_append, List.map_singleton, hlast]
    by_cases hnew : site = site'
    · subst hnew
      rw [if_pos rfl]
      refine ⟨fun hsymbol => ⟨_, List.getElem?_concat_length, (Option.some.inj hsymbol).symm⟩, ?_⟩
      rintro ⟨i, hi, rfl⟩
      rw [List.getElem?_append] at hi
      split at hi
      · exact absurd (List.mem_of_getElem? hi) hsite
      · obtain ⟨hlt, -⟩ := List.getElem?_eq_some_iff.mp hi
        rw [List.length_singleton] at hlt
        congr 2
        omega
    · rw [if_neg hnew, hintern.symbols]
      refine exists_congr fun i => and_congr_left fun _ => ?_
      rw [List.getElem?_append]
      split
      · rfl
      · rename_i hle
        rw [List.getElem?_eq_none (Nat.le_of_not_lt hle), List.getElem?_singleton]
        split <;> simp [hnew]

/-- **An object of a known site** tells nothing new. -/
theorem object_known (h : t.Knows mentioned declared allocated)
    (hsite : (allocated.map Allocation.site)[i]? = some site) (type : String) :
    t.object type site = (UInt32.ofNat i, t) := by
  unfold object
  rw [h.symbols.mpr ⟨i, hsite, rfl⟩]

end Knows

end TypeTables

/-! ## 5. All calls -/

namespace TypeRegistry

theorem declared_cons {c : Call} {earlier : List Call} {sub sup : String} :
    Declared (c :: earlier) sub sup ↔
      Declared earlier sub sup ∨ ∃ supertypes, c = .declare sub supertypes ∧ sup ∈ supertypes := by
  simp only [Declared, List.mem_cons, or_and_right, exists_or, or_comm, eq_comm]

theorem knows_empty : empty.tables.Knows [] (Declared []) [] := by
  refine ⟨.empty, rfl, fun {_ _} => ⟨?_, ?_⟩, .nil, fun {_ _} => ⟨?_, ?_⟩⟩
  · rintro ⟨_, h, -⟩
    exact absurd h List.not_mem_nil
  · rintro ⟨i, j, hi, -⟩
    simp [empty] at hi
  · intro h
    simp [empty] at h
  · rintro ⟨i, hi, -⟩
    simp at hi

/-- **Whatever was called, a registry knows what it was told.** -/
theorem knows_after (calls : List Call) :
    (after calls).tables.Knows (mentions calls) (Declared calls) (allocations calls) := by
  induction calls with
  | nil => exact knows_empty
  | cons c earlier ih =>
    cases c with
    | declare name supertypes =>
      refine (ih.declare name supertypes).declared_congr fun a b => ?_
      rw [declared_cons]
      simp [and_comm, eq_comm]
    | object type site =>
      have hdeclared : ∀ a b, Declared (.object type site :: earlier) a b ↔ Declared earlier a b :=
        fun a b => by simp [declared_cons]
      refine TypeTables.Knows.declared_congr ?_ hdeclared
      by_cases hsite : site ∈ (allocations earlier).map Allocation.site
      · obtain ⟨i, hi⟩ := List.mem_iff_getElem?.mp hsite
        have hsame : (after (.object type site :: earlier)).tables = (after earlier).tables :=
          congrArg Prod.snd (ih.object_known hi type)
        simp only [mentions, allocations, if_pos hsite, hsame]
        exact ih
      · simp only [mentions, allocations, if_neg hsite]
        exact ih.object_new hsite type
    | typeFilter name =>
      have hsame : (after (.typeFilter name :: earlier)).tables = (after earlier).tables :=
        alike_typeFilter _ name
      rw [hsame]
      exact ih.declared_congr fun a b => by simp [declared_cons]
    | reset => exact ih.declared_congr fun a b => by simp [declared_cons]

end TypeRegistry

end ValueFlow
