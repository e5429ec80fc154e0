import ValueFlow.Proofs.Variant.Rows
import ValueFlow.Proofs.Variant.Sharing

/-!
# What is registered

A table of variants is told to register variants, is asked for them and is reset. How its pool hands
out indices is not seen by whoever calls it: the answers are the same, and so are the variants. There
is one for each index, as it was first registered.

* `after`, `answers`, `requests`: the table after some calls, what they answered, and what was to be
  registered since the last reset;
* `call_alike`: tables of the same variants answer alike and keep the same variants;
* `pool_after`: the table asks its pool once for every registration;
* `Faithful`, `faithful_after`: what a table of variants tells about the registrations;
* `strategies_agree`: tables with and without sharing cannot be told apart.
-/

namespace ValueFlow.VariantTable

variable {ε : Type}

/-! ## 1. Calls -/

/-- **A call on a table of variants.** -/
inductive Call (ε : Type) where
  | register (entity : ε) (context : Context ε) (layout : Layout)
  | lookup (entity : ε) (context : Context ε)
  | reset
  deriving DecidableEq, Repr

/-- **What was to be registered** since the last reset, in the order of the calls. -/
def requests : List (Call ε) → List (Variant ε)
  | [] => []
  | .register entity context layout :: earlier => requests earlier ++ [⟨entity, context, layout⟩]
  | .lookup _ _ :: earlier => requests earlier
  | .reset :: _ => []

/-- What a table asks of its pool. -/
def Call.onPool? : Call ε → Option (IndexPool.Call ε)
  | .register entity context _ => some (.get entity context)
  | .lookup _ _ => none
  | .reset => some .reset

variable [DecidableEq ε]

/-- The answer to a call, and the table after it. -/
def call (t : VariantTable ε) : Call ε → Option VariantId × VariantTable ε
  | .register entity context layout =>
    let registered := t.register entity context layout
    (some registered.1, registered.2)
  | .lookup entity context => (t.find? entity context, t)
  | .reset => (none, t.reset)

/-- **The table after some calls** on a new one, the last call first. -/
def after (strategy : IndexStrategy) : List (Call ε) → VariantTable ε
  | [] => .empty strategy
  | c :: earlier => ((after strategy earlier).call c).2

/-- **The answers to the calls**, the last one first. -/
def answers (strategy : IndexStrategy) : List (Call ε) → List (Option VariantId)
  | [] => []
  | c :: earlier => ((after strategy earlier).call c).1 :: answers strategy earlier

/-! ## 2. The pool is not seen -/

section Alike

variable {t t' : VariantTable ε}

theorem find?_congr (h : t.variants = t'.variants) (entity : ε) (context : Context ε) :
    t.find? entity context = t'.find? entity context := by
  rw [find?_eq, find?_eq, h]

/-- **Tables of the same variants answer alike** and keep the same variants. -/
theorem call_alike (h : t.variants = t'.variants) (c : Call ε) :
    (t.call c).1 = (t'.call c).1 ∧ (t.call c).2.variants = (t'.call c).2.variants := by
  cases c with
  | reset => exact ⟨rfl, rfl⟩
  | lookup entity context => exact ⟨find?_congr h entity context, h⟩
  | register entity context layout =>
    dsimp only [call]
    cases hfind : t.find? entity context with
    | some id =>
      have hfind' : t'.find? entity context = some id := find?_congr h entity context ▸ hfind
      rw [register_of_some hfind, register_of_some hfind']
      exact ⟨rfl, h⟩
    | none =>
      have hfind' : t'.find? entity context = none := find?_congr h entity context ▸ hfind
      rw [register_of_none hfind, register_of_none hfind']
      simp only [nextId, push, h, and_self]

end Alike

theorem alike_after (strategy strategy' : IndexStrategy) (calls : List (Call ε)) :
    answers strategy calls = answers strategy' calls ∧
      (after strategy calls).variants = (after strategy' calls).variants := by
  induction calls with
  | nil => exact ⟨rfl, rfl⟩
  | cons c earlier ih =>
    obtain ⟨hanswers, hvariants⟩ := ih
    obtain ⟨hanswer, hvariants'⟩ := call_alike hvariants c
    exact ⟨congrArg₂ List.cons hanswer hanswers, hvariants'⟩

/-! ## 3. One variant for each index -/

/-- **What the variants tell about the registrations.** -/
structure Faithful (t : VariantTable ε) (requested : List (Variant ε)) : Prop where
  /-- there is one variant for each index, in the order in which they first came up -/
  indices : t.variants.toList.map Variant.index = (requested.map Variant.index).eraseDups
  /-- a variant is as it was first registered -/
  first : ∀ v ∈ t.variants.toList, requested.find? (fun r => r.index = v.index) = some v

namespace Faithful

variable {t : VariantTable ε} {requested : List (Variant ε)} {entity : ε} {context : Context ε}

theorem find?_eq_none_iff (h : t.Faithful requested) :
    t.find? entity context = none ↔ ⟨entity, context⟩ ∉ requested.map Variant.index := by
  rw [← List.mem_eraseDups, ← h.indices, find?_eq]
  simp [Array.findIdx?_eq_none_iff]

theorem distinct (h : t.Faithful requested) : t.Distinct := by
  have hnodup : ((t.variants.toList.map fun v => (v.entity, v.context)).map fun row =>
      Index.mk row.1 row.2).Nodup := by
    rw [List.map_map]
    exact h.indices ▸ nodup_eraseDups _
  unfold Distinct
  rw [map_snd_rows]
  exact hnodup.of_map

/-- What was registered before stays as it is. -/
theorem first_append (h : t.Faithful requested) {v : Variant ε} (hv : v ∈ t.variants.toList)
    (later : List (Variant ε)) :
    (requested ++ later).find? (fun r => r.index = v.index) = some v := by
  rw [List.find?_append, h.first v hv]
  rfl

theorem register (h : t.Faithful requested) (entity : ε) (context : Context ε) (layout : Layout) :
    (t.register entity context layout).2.Faithful (requested ++ [⟨entity, context, layout⟩]) := by
  by_cases hknown : ⟨entity, context⟩ ∈ requested.map Variant.index
  · obtain ⟨id, hfind⟩ := Option.ne_none_iff_exists'.mp fun hnone =>
      h.find?_eq_none_iff.mp hnone hknown
    rw [register_of_some hfind]
    constructor
    · rw [List.map_append, List.map_singleton, eraseDups_concat, if_pos hknown]
      exact h.indices
    · intro v hv
      exact h.first_append hv _
  · rw [register_of_none (h.find?_eq_none_iff.mpr hknown)]
    constructor
    · rw [List.map_append, List.map_singleton, eraseDups_concat, if_neg hknown, ← h.indices]
      simp [push]
    · intro v hv
      rcases List.mem_append.mp (Array.toList_push ▸ hv) with hv | hv
      · exact h.first_append hv _
      · obtain rfl := List.mem_singleton.mp hv
        have hnone : requested.find? (fun r => r.index = ⟨entity, context⟩) = none :=
          List.find?_eq_none.mpr fun r hr hindex =>
            hknown (List.mem_map.mpr ⟨r, hr, of_decide_eq_true hindex⟩)
        rw [List.find?_append, hnone]
        simp

end Faithful

variable {strategy : IndexStrategy}

/-- **Whatever was called, there is one variant for each index**, as it was first registered. -/
theorem faithful_after (calls : List (Call ε)) :
    (after strategy calls).Faithful (requests calls) := by
  induction calls with
  | nil => exact ⟨rfl, nofun⟩
  | cons c earlier ih =>
    cases c with
    | register entity context layout => exact ih.register entity context layout
    | lookup entity context => exact ih
    | reset => exact ⟨rfl, nofun⟩

/-! ## 4. What the pool keeps -/

theorem pool_register (t : VariantTable ε) (entity : ε) (context : Context ε) (layout : Layout) :
    (t.register entity context layout).2.pool = (t.pool.get entity context).2 := by
  cases hfind : t.find? entity context with
  | some id => rw [register_of_some hfind]
  | none =>
    rw [register_of_none hfind]
    rfl

/-- **The pool is asked once for every registration**, whether or not the variant is new. -/
theorem pool_after (calls : List (Call ε)) :
    (after strategy calls).pool = IndexPool.after strategy (calls.filterMap Call.onPool?) := by
  induction calls with
  | nil => rfl
  | cons c earlier ih =>
    cases c with
    | register entity context layout =>
      exact (pool_register _ entity context layout).trans (ih ▸ rfl)
    | lookup entity context => exact ih
    | reset => exact congrArg IndexPool.reset ih

omit [DecidableEq ε] in
theorem asked_onPool (calls : List (Call ε)) :
    IndexPool.asked (calls.filterMap Call.onPool?) =
      ((requests calls).map Variant.index).reverse := by
  induction calls with
  | nil => rfl
  | cons c earlier ih =>
    cases c with
    | register entity context layout => simp [Call.onPool?, IndexPool.asked, requests, ih]
    | lookup entity context => exact ih
    | reset => rfl

theorem pool_size_of_memoryIntensive (calls : List (Call ε)) :
    (after .memoryIntensive calls).pool.size = 0 := by
  rw [pool_after, IndexPool.size, IndexPool.shared_of_memoryIntensive]
  rfl

/-- A pool that shares keeps one copy for each variant. -/
theorem pool_size_of_processorIntensive (calls : List (Call ε)) :
    (after .processorIntensive calls).pool.size = (after .processorIntensive calls).size := by
  have hkept : (after .processorIntensive calls).pool.shared.map IndexCopy.index =
      (after .processorIntensive calls).variants.toList.map Variant.index := by
    rw [pool_after, IndexPool.map_index_shared, asked_onPool, List.reverse_reverse,
      (faithful_after calls).indices]
  simpa [IndexPool.size, size] using congrArg List.length hkept

/-- **Tables with and without sharing cannot be told apart.** They answer the same to all calls and
have the same variants; only the pool shows what it keeps: a copy for each variant, or none. In both
there is one variant for each index, as it was first registered since the last reset. It is what is
found by its entity and its context, and what registering it again answers and leaves alone. -/
theorem strategies_agree (calls : List (Call ε)) :
    answers .memoryIntensive calls = answers .processorIntensive calls ∧
    (after .memoryIntensive calls).variants = (after .processorIntensive calls).variants ∧
    (after .memoryIntensive calls).pool.size = 0 ∧
    (after .processorIntensive calls).pool.size = (after .processorIntensive calls).size ∧
    ∀ strategy, let t := after strategy calls
      t.Faithful (requests calls) ∧ t.Distinct ∧
      (∀ entity context id, t.find? entity context = some id ↔
        ∃ v, t.get? id = some v ∧ v.entity = entity ∧ v.context = context) ∧
      ∀ entity context id layout, t.find? entity context = some id →
        (t.register entity context layout).1 = id ∧
        (t.register entity context layout).2.variants = t.variants := by
  obtain ⟨hanswers, hvariants⟩ := alike_after .memoryIntensive .processorIntensive calls
  refine ⟨hanswers, hvariants, pool_size_of_memoryIntensive calls,
    pool_size_of_processorIntensive calls, fun strategy => ?_⟩
  intro t
  have hfaithful : t.Faithful (requests calls) := faithful_after calls
  refine ⟨hfaithful, hfaithful.distinct, ?_, ?_⟩
  · intro entity context id
    rw [find?_eq_some_iff hfaithful.distinct, mem_rows]
  · intro entity context id layout hfind
    rw [register_of_some hfind]
    exact ⟨rfl, rfl⟩

/-- Two entities are registered, one of them again, after a table with other nodes was reset. -/
def recurring : List (Call Nat) :=
  [.register 0 .empty (.value ⟨5⟩), .register 1 .empty (.value ⟨4⟩), .register 0 .empty (.value ⟨3⟩),
    .reset, .register 0 .empty (.value ⟨2⟩)]

/-- The third request for an entity is answered with its variant, which keeps the nodes of the
first one. -/
theorem strategies_agree_recurring :
    let t := after .processorIntensive recurring
    t.find? 0 .empty = some ⟨0⟩ ∧ (t.register 0 .empty (.value ⟨6⟩)).1 = ⟨0⟩ ∧
    (t.register 0 .empty (.value ⟨6⟩)).2.variants =
      #[⟨0, .empty, .value ⟨3⟩⟩, ⟨1, .empty, .value ⟨4⟩⟩] := by
  intro t
  have hfind : t.find? 0 .empty = some ⟨0⟩ := by decide
  have hvariants : t.variants = #[⟨0, .empty, .value ⟨3⟩⟩, ⟨1, .empty, .value ⟨4⟩⟩] := by decide
  obtain ⟨-, -, -, -, hboth⟩ := strategies_agree recurring
  obtain ⟨-, -, -, hagain⟩ := hboth .processorIntensive
  obtain ⟨hid, hsame⟩ := hagain 0 .empty ⟨0⟩ (.value ⟨6⟩) hfind
  exact ⟨hfind, hid, hsame.trans hvariants⟩

end ValueFlow.VariantTable
