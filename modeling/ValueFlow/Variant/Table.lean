import ValueFlow.Variant.Basic
import ValueFlow.Variant.Index

/-!
# The table of variants

One variant for every entity and context that was registered, addressed by its position. Variants
are looked for by their indices, which a pool hands out (`VariantManager`, with `find?` for
`lookup`, `nextId` and `register`).
-/

namespace ValueFlow

/-- The index by which a variant is looked for. -/
@[reducible] def Variant.index {ε : Type} (v : Variant ε) : Index ε := ⟨v.entity, v.context⟩

/-- **The variants, and their handles by index.** -/
structure VariantTable (ε : Type) where
  pool : IndexPool ε
  /-- the handle of each registered index -/
  byIndex : List (Index ε × VariantId)
  variants : Array (Variant ε)
  /-- each variant is registered by its index, in their order -/
  agree : byIndex = variants.toList.mapIdx fun i v => (v.index, ⟨i⟩)

namespace VariantTable

variable {ε : Type}

def empty (strategy : IndexStrategy) : VariantTable ε := ⟨.empty strategy, [], #[], rfl⟩

def size (t : VariantTable ε) : Nat := t.variants.size

def get? (t : VariantTable ε) (id : VariantId) : Option (Variant ε) := t.variants[id.index]?

/-- The handle that the next new variant gets. -/
def nextId (t : VariantTable ε) : VariantId := ⟨t.variants.size⟩

def reset (t : VariantTable ε) : VariantTable ε := ⟨t.pool.reset, [], #[], rfl⟩

/-- Put a variant at the end, and register it by its index. -/
def push (t : VariantTable ε) (pool : IndexPool ε) (index : Index ε) (v : Variant ε)
    (h : index = v.index) : VariantTable ε where
  pool
  byIndex := t.byIndex ++ [(index, t.nextId)]
  variants := t.variants.push v
  agree := by
    rw [t.agree, h, Array.toList_push, List.mapIdx_concat]
    rfl

variable [DecidableEq ε]

/-- The handle that is registered by an index. -/
def lookup? (t : VariantTable ε) (index : Index ε) : Option VariantId :=
  (t.byIndex.find? fun row => row.1 = index).map Prod.snd

/-- The variant of an entity in a context. -/
def find? (t : VariantTable ε) (entity : ε) (context : Context ε) : Option VariantId :=
  t.lookup? ⟨entity, context⟩

/-- **Register a variant.** One that is there already is answered as it is. -/
def register (t : VariantTable ε) (entity : ε) (context : Context ε) (layout : Layout) :
    VariantId × VariantTable ε :=
  let handed := t.pool.get entity context
  match t.lookup? handed.1.index with
  | some id => (id, { t with pool := handed.2 })
  | none => (t.nextId, t.push handed.2 handed.1.index ⟨entity, context, layout⟩
      (t.pool.index_get entity context))

/-! ## What is found -/

variable {t : VariantTable ε} {entity : ε} {context : Context ε} {id : VariantId}

theorem find?_mapIdx {β : Type} (vs : List (Variant ε)) (index : Index ε) (handle : Nat → β) :
    ((vs.mapIdx fun i v => (v.index, handle i)).find? fun row => row.1 = index).map Prod.snd =
      (vs.findIdx? fun v => v.index = index).map handle := by
  induction vs generalizing handle with
  | nil => rfl
  | cons v vs ih =>
    rw [List.mapIdx_cons, List.find?_cons, List.findIdx?_cons]
    by_cases hv : v.index = index
    · simp [hv]
    · simpa [hv, Function.comp_def] using ih fun i => handle (i + 1)

/-- A variant is found at the first place where it stands. -/
theorem find?_eq (t : VariantTable ε) (entity : ε) (context : Context ε) :
    t.find? entity context =
      (t.variants.findIdx? fun v => v.entity = entity && v.context = context).map VariantId.mk := by
  unfold find? lookup?
  rw [t.agree, find?_mapIdx, ← List.findIdx?_toArray, Array.toArray_toList]
  congr 2
  funext v
  simp [Variant.index]

theorem get?_of_find? (h : t.find? entity context = some id) :
    ∃ v, t.get? id = some v ∧ v.entity = entity ∧ v.context = context := by
  rw [find?_eq] at h
  obtain ⟨i, hi, rfl⟩ := Option.map_eq_some_iff.mp h
  obtain ⟨hlt, hv, -⟩ := Array.findIdx?_eq_some_iff_getElem.mp hi
  simp only [Bool.and_eq_true, decide_eq_true_eq] at hv
  exact ⟨_, Array.getElem?_eq_getElem hlt, hv⟩

theorem find?_push (pool : IndexPool ε) (index : Index ε) (v : Variant ε) (h : index = v.index) :
    (t.push pool index v h).find? entity context = (t.find? entity context).or
      (if index = ⟨entity, context⟩ then some t.nextId else none) := by
  unfold find? lookup? push
  dsimp only
  rw [List.find?_append, Option.map_or, List.find?_singleton]
  by_cases hindex : index = ⟨entity, context⟩ <;> simp [hindex]

theorem register_of_some (h : t.find? entity context = some id) (layout : Layout) :
    t.register entity context layout = (id, { t with pool := (t.pool.get entity context).2 }) := by
  have hlookup : t.lookup? (t.pool.get entity context).1.index = some id := by
    rw [t.pool.index_get]
    exact h
  unfold register
  dsimp only
  rw [hlookup]

theorem register_of_none (h : t.find? entity context = none) (layout : Layout) :
    t.register entity context layout = (t.nextId, t.push (t.pool.get entity context).2
      ⟨entity, context⟩ ⟨entity, context, layout⟩ rfl) := by
  have hlookup : t.lookup? (t.pool.get entity context).1.index = none := by
    rw [t.pool.index_get]
    exact h
  unfold register push
  dsimp only
  rw [hlookup]
  simp only [t.pool.index_get]

end VariantTable

end ValueFlow
