import Mathlib.Data.List.Nodup
import ValueFlow.Variant.Table

/-!
# The rows of a table of variants

A table is read as a list of rows, one for each variant: its handle, its entity and its context.

* `Distinct`, `Distinct.push`: no entity and context have two variants, and none get a second one;
* `find?_eq_some_iff`: in a table of distinct variants each one is found.
-/

namespace ValueFlow.VariantTable

variable {ε : Type} {t : VariantTable ε} {entity : ε} {c : Context ε} {id : VariantId}

/-- Each variant with its entity and its context, in the order of their creation. -/
def rows (t : VariantTable ε) : List (VariantId × ε × Context ε) :=
  t.variants.toList.mapIdx fun i v => (⟨i⟩, v.entity, v.context)

/-- No two variants have the same entity and the same context. -/
def Distinct (t : VariantTable ε) : Prop := (t.rows.map Prod.snd).Nodup

theorem mem_rows : (id, entity, c) ∈ t.rows ↔
    ∃ v, t.get? id = some v ∧ v.entity = entity ∧ v.context = c := by
  unfold rows get?
  simp only [List.mem_mapIdx, Array.length_toList, Array.getElem_toList, Prod.mk.injEq,
    Array.getElem?_eq_some_iff]
  constructor
  · rintro ⟨i, hi, rfl, rfl, rfl⟩
    exact ⟨_, ⟨hi, rfl⟩, rfl, rfl⟩
  · rintro ⟨_, ⟨hi, rfl⟩, rfl, rfl⟩
    exact ⟨id.index, hi, rfl, rfl, rfl⟩

/-- The handles are dense. -/
theorem map_fst_rows (t : VariantTable ε) :
    t.rows.map Prod.fst = (List.range t.size).map VariantId.mk := by
  refine List.ext_getElem (by simp [rows, size]) fun i h _ => ?_
  simp [rows]

theorem map_snd_rows (t : VariantTable ε) :
    t.rows.map Prod.snd = t.variants.toList.map fun v => (v.entity, v.context) := by
  refine List.ext_getElem (by simp [rows]) fun i h _ => ?_
  simp [rows]

theorem rows_push (pool : IndexPool ε) (index : Index ε) (v : Variant ε) (h : index = v.index) :
    (t.push pool index v h).rows = t.rows ++ [(t.nextId, v.entity, v.context)] := by
  simp [rows, push, nextId, List.mapIdx_concat]

theorem Distinct.eq (h : t.Distinct) {id' : VariantId} (hid : (id, entity, c) ∈ t.rows)
    (hid' : (id', entity, c) ∈ t.rows) : id = id' :=
  congrArg Prod.fst (List.inj_on_of_nodup_map h hid hid' rfl)

variable [DecidableEq ε]

theorem mem_rows_of_find? (h : t.find? entity c = some id) : (id, entity, c) ∈ t.rows :=
  mem_rows.mpr (get?_of_find? h)

theorem find?_eq_none_iff : t.find? entity c = none ↔ (entity, c) ∉ t.rows.map Prod.snd := by
  rw [map_snd_rows, find?_eq]
  simp [Array.findIdx?_eq_none_iff]

/-- **Each of the variants is found** by its entity and its context, if they are distinct. -/
theorem find?_eq_some_iff (h : t.Distinct) :
    t.find? entity c = some id ↔ (id, entity, c) ∈ t.rows := by
  refine ⟨mem_rows_of_find?, fun hid => ?_⟩
  cases hfind : t.find? entity c with
  | none => exact absurd (List.mem_map_of_mem hid) (find?_eq_none_iff.mp hfind)
  | some id' => rw [h.eq (mem_rows_of_find? hfind) hid]

theorem Distinct.push (h : t.Distinct) (hfind : t.find? entity c = none) (pool : IndexPool ε)
    (layout : Layout) : (t.push pool ⟨entity, c⟩ ⟨entity, c, layout⟩ rfl).Distinct := by
  unfold Distinct
  rw [rows_push, List.map_append, List.map_singleton, ← List.concat_eq_append]
  exact List.Nodup.concat (find?_eq_none_iff.mp hfind) h

end ValueFlow.VariantTable
