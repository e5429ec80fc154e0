import ValueFlow.Proofs.FirstOccurrences
import ValueFlow.Variant.Index

/-!
# Which copy is handed out

A pool hands out copies of indices. It makes a new copy for every request, or it keeps the first copy
of each index and hands it out again until it is reset. Which of the two it does cannot be told
from the values of the copies, only from their identity.

* `after`, `asked`: the pool after some calls, and what was asked for since the last reset;
* `get_cases`: a copy that is handed out was kept, or is new;
* `Sound`, `sound_after`: kept copies differ in their indices and in their numbers;
* `copies_told_apart`: two requests get the same copy exactly if copies are shared, there was no
  reset between them, and they ask for the same index.
-/

namespace ValueFlow.IndexPool

variable {ε : Type}

/-! ## 1. Calls -/

/-- **A call on a pool.** -/
inductive Call (ε : Type) where
  | get (entity : ε) (context : Context ε)
  | reset
  deriving DecidableEq, Repr

/-- **What was asked for since the last reset**, the last request first. -/
def asked : List (Call ε) → List (Index ε)
  | [] => []
  | .get entity context :: earlier => ⟨entity, context⟩ :: asked earlier
  | .reset :: _ => []

variable [DecidableEq ε]

def call (p : IndexPool ε) : Call ε → IndexPool ε
  | .get entity context => (p.get entity context).2
  | .reset => p.reset

/-- **The pool after some calls** on a new one, the last call first. -/
def after (strategy : IndexStrategy) : List (Call ε) → IndexPool ε
  | [] => .empty strategy
  | c :: earlier => (after strategy earlier).call c

/-! ## 2. One request -/

section OneRequest

variable {p : IndexPool ε} {entity : ε} {context : Context ε} {copy : IndexCopy ε}

/-- **A copy that is handed out was kept, or is new.** A new one is kept if copies are shared. -/
theorem get_cases (p : IndexPool ε) (entity : ε) (context : Context ε) :
    (∃ kept ∈ p.shared, kept.index = ⟨entity, context⟩ ∧ p.strategy = .processorIntensive ∧
      p.get entity context = (kept, p)) ∨
    p.get entity context = (⟨⟨entity, context⟩, p.made⟩, { p with
        shared := if p.strategy = .processorIntensive
          then p.shared ++ [⟨⟨entity, context⟩, p.made⟩] else p.shared
        made := p.made + 1 }) ∧
      (p.strategy = .processorIntensive → ⟨entity, context⟩ ∉ p.shared.map IndexCopy.index) := by
  unfold get
  dsimp only
  cases hstrategy : p.strategy with
  | memoryIntensive => exact .inr ⟨rfl, nofun⟩
  | processorIntensive =>
    cases hfound : p.shared.find? fun c => c.index = ⟨entity, context⟩ with
    | some kept =>
      have hindex : kept.index = ⟨entity, context⟩ := by simpa using List.find?_some hfound
      exact .inl ⟨kept, List.mem_of_find?_eq_some hfound, hindex, rfl, rfl⟩
    | none =>
      refine .inr ⟨rfl, fun _ hmem => ?_⟩
      obtain ⟨kept, hkept, hindex⟩ := List.mem_map.mp hmem
      simpa [hindex] using List.find?_eq_none.mp hfound kept hkept

theorem strategy_call (p : IndexPool ε) (c : Call ε) : (p.call c).strategy = p.strategy := by
  cases c with
  | reset => rfl
  | get entity context =>
    show (p.get entity context).2.strategy = _
    obtain ⟨kept, -, -, -, hget⟩ | ⟨hget, -⟩ := p.get_cases entity context
    · rw [hget]
    · rw [hget]

theorem made_le_call (p : IndexPool ε) (c : Call ε) : p.made ≤ (p.call c).made := by
  cases c with
  | reset => exact Nat.le_refl _
  | get entity context =>
    show _ ≤ (p.get entity context).2.made
    obtain ⟨kept, -, -, -, hget⟩ | ⟨hget, -⟩ := p.get_cases entity context
    · rw [hget]
    · rw [hget]
      exact Nat.le_succ _

/-- **Kept copies differ** in their indices and in their numbers, which were given out. -/
structure Sound (p : IndexPool ε) : Prop where
  once : (p.shared.map IndexCopy.index).Nodup
  apart : (p.shared.map IndexCopy.number).Nodup
  made : ∀ copy ∈ p.shared, copy.number < p.made

theorem Sound.call (h : p.Sound) (c : Call ε) : (p.call c).Sound := by
  cases c with
  | reset => exact ⟨List.nodup_nil, List.nodup_nil, nofun⟩
  | get entity context =>
    show (p.get entity context).2.Sound
    obtain ⟨kept, -, -, -, hget⟩ | ⟨hget, hnew⟩ := p.get_cases entity context
    · rw [hget]
      exact h
    · rw [hget]
      have hmade : ∀ copy ∈ p.shared, copy.number < p.made + 1 := fun copy hcopy =>
        Nat.lt_succ_of_lt (h.made copy hcopy)
      by_cases hstrategy : p.strategy = .processorIntensive
      · have hnumber : p.made ∉ p.shared.map IndexCopy.number := by
          intro hmem
          obtain ⟨copy, hcopy, hnumber⟩ := List.mem_map.mp hmem
          exact Nat.lt_irrefl _ (hnumber ▸ h.made copy hcopy)
        constructor
        · simpa [hstrategy] using h.once.concat (hnew hstrategy)
        · simpa [hstrategy] using h.apart.concat hnumber
        · simp only [hstrategy, if_true, List.mem_append, List.mem_singleton]
          rintro copy (hcopy | rfl)
          · exact hmade copy hcopy
          · exact Nat.lt_succ_self _
      · simp only [hstrategy, if_false]
        exact ⟨h.once, h.apart, hmade⟩

theorem number_get_lt (h : p.Sound) (entity : ε) (context : Context ε) :
    (p.get entity context).1.number < (p.get entity context).2.made := by
  obtain ⟨kept, hkept, -, -, hget⟩ | ⟨hget, -⟩ := p.get_cases entity context
  · rw [hget]
    exact h.made kept hkept
  · rw [hget]
    exact Nat.lt_succ_self _

/-- Where copies are shared, the one that is handed out is kept. -/
theorem mem_shared_get (hstrategy : p.strategy = .processorIntensive) (entity : ε)
    (context : Context ε) : (p.get entity context).1 ∈ (p.get entity context).2.shared := by
  obtain ⟨kept, hkept, -, -, hget⟩ | ⟨hget, -⟩ := p.get_cases entity context
  · rw [hget]
    exact hkept
  · rw [hget]
    simp [hstrategy]

theorem mem_shared_of_mem (hcopy : copy ∈ p.shared) (entity : ε) (context : Context ε) :
    copy ∈ (p.get entity context).2.shared := by
  obtain ⟨kept, -, -, -, hget⟩ | ⟨hget, -⟩ := p.get_cases entity context
  · rw [hget]
    exact hcopy
  · rw [hget]
    dsimp only
    split
    · exact List.mem_append_left _ hcopy
    · exact hcopy

theorem of_mem_shared_get (hcopy : copy ∈ (p.get entity context).2.shared) :
    copy ∈ p.shared ∨ copy.number = p.made := by
  obtain ⟨kept, -, -, -, hget⟩ | ⟨hget, -⟩ := p.get_cases entity context
  · rw [hget] at hcopy
    exact .inl hcopy
  · rw [hget] at hcopy
    dsimp only at hcopy
    split at hcopy
    · rcases List.mem_append.mp hcopy with hcopy | hcopy
      · exact .inl hcopy
      · exact .inr (congrArg IndexCopy.number (List.mem_singleton.mp hcopy))
    · exact .inl hcopy

/-- An index is kept once. -/
theorem map_index_get (hstrategy : p.strategy = .processorIntensive) (entity : ε)
    (context : Context ε) : (p.get entity context).2.shared.map IndexCopy.index =
      if ⟨entity, context⟩ ∈ p.shared.map IndexCopy.index then p.shared.map IndexCopy.index
      else p.shared.map IndexCopy.index ++ [⟨entity, context⟩] := by
  obtain ⟨kept, hkept, hindex, -, hget⟩ | ⟨hget, hnew⟩ := p.get_cases entity context
  · rw [hget, if_pos (List.mem_map.mpr ⟨kept, hkept, hindex⟩)]
  · rw [hget, if_neg (hnew hstrategy)]
    simp [hstrategy]

/-- **A kept copy is handed out exactly to requests for its index.** -/
theorem number_get_eq_iff (h : p.Sound) (hstrategy : p.strategy = .processorIntensive)
    (hcopy : copy ∈ p.shared) :
    copy.number = (p.get entity context).1.number ↔ copy.index = ⟨entity, context⟩ := by
  obtain ⟨kept, hkept, hindex, -, hget⟩ | ⟨hget, hnew⟩ := p.get_cases entity context
  · rw [hget, ← hindex]
    constructor
    · intro hnumber
      rw [List.inj_on_of_nodup_map h.apart hcopy hkept hnumber]
    · intro hsame
      rw [List.inj_on_of_nodup_map h.once hcopy hkept hsame]
  · rw [hget]
    refine iff_of_false (Nat.ne_of_lt (h.made copy hcopy)) fun hindex => ?_
    exact hnew hstrategy (List.mem_map.mpr ⟨copy, hcopy, hindex⟩)

end OneRequest

/-! ## 3. All requests -/

variable {strategy : IndexStrategy}

theorem strategy_after (calls : List (Call ε)) : (after strategy calls).strategy = strategy := by
  induction calls with
  | nil => rfl
  | cons c earlier ih => exact (strategy_call _ c).trans ih

theorem sound_after (calls : List (Call ε)) : (after strategy calls).Sound := by
  induction calls with
  | nil => exact ⟨List.nodup_nil, List.nodup_nil, nofun⟩
  | cons c earlier ih => exact ih.call c

theorem made_le_after (later earlier : List (Call ε)) :
    (after strategy earlier).made ≤ (after strategy (later ++ earlier)).made := by
  induction later with
  | nil => exact Nat.le_refl _
  | cons c later ih => exact ih.trans (made_le_call _ c)

/-- A copy stays kept until the pool is reset. -/
theorem mem_shared_after {copy : IndexCopy ε} {later earlier : List (Call ε)}
    (hcopy : copy ∈ (after strategy earlier).shared) (hreset : .reset ∉ later) :
    copy ∈ (after strategy (later ++ earlier)).shared := by
  induction later with
  | nil => exact hcopy
  | cons c later ih =>
    have hkept := ih fun hmem => hreset (List.mem_cons_of_mem c hmem)
    cases c with
    | reset => exact absurd List.mem_cons_self hreset
    | get entity context => exact mem_shared_of_mem hkept entity context

/-- After a reset all kept copies are newer than it. -/
theorem made_le_of_mem_shared {copy : IndexCopy ε} {later earlier : List (Call ε)}
    (hreset : .reset ∈ later) (hcopy : copy ∈ (after strategy (later ++ earlier)).shared) :
    (after strategy earlier).made ≤ copy.number := by
  induction later with
  | nil => exact absurd hreset List.not_mem_nil
  | cons c later ih =>
    cases c with
    | reset => exact absurd hcopy List.not_mem_nil
    | get entity context =>
      have hreset' : .reset ∈ later := by simpa using hreset
      rcases of_mem_shared_get hcopy with hcopy | hnumber
      · exact ih hreset' hcopy
      · rw [hnumber]
        exact made_le_after later earlier

theorem shared_of_memoryIntensive (calls : List (Call ε)) :
    (after .memoryIntensive calls).shared = [] := by
  induction calls with
  | nil => rfl
  | cons c earlier ih =>
    cases c with
    | reset => rfl
    | get entity context =>
      have hstrategy : (after .memoryIntensive earlier).strategy = .memoryIntensive :=
        strategy_after earlier
      show ((after .memoryIntensive earlier).get entity context).2.shared = []
      unfold get
      rw [hstrategy]
      exact ih

/-- **The kept copies are those of the indices that were asked for** since the last reset, as these
first came up. -/
theorem map_index_shared (calls : List (Call ε)) :
    (after .processorIntensive calls).shared.map IndexCopy.index =
      (asked calls).reverse.eraseDups := by
  induction calls with
  | nil => rfl
  | cons c earlier ih =>
    cases c with
    | reset => rfl
    | get entity context =>
      show ((after .processorIntensive earlier).get entity context).2.shared.map _ = _
      rw [map_index_get (strategy_after earlier), ih, asked, List.reverse_cons, eraseDups_concat]
      simp only [List.mem_eraseDups]

/-- How many copies are kept. -/
def sharedCount (strategy : IndexStrategy) (calls : List (Call ε)) : Nat :=
  match strategy with
  | .memoryIntensive => 0
  | .processorIntensive => (asked calls).toFinset.card

theorem size_after (calls : List (Call ε)) :
    (after strategy calls).size = sharedCount strategy calls := by
  unfold size
  cases strategy with
  | memoryIntensive =>
    rw [shared_of_memoryIntensive]
    rfl
  | processorIntensive =>
    rw [← List.length_map IndexCopy.index, map_index_shared, length_eraseDups, List.toFinset_reverse]
    rfl

/-- What is handed out without sharing, or after a reset, is newer than what was made before. -/
theorem made_le_number_get {later : List (Call ε)} (earlier : List (Call ε))
    (hfresh : strategy = .memoryIntensive ∨ .reset ∈ later) (entity : ε) (context : Context ε) :
    (after strategy earlier).made ≤
      ((after strategy (later ++ earlier)).get entity context).1.number := by
  obtain ⟨kept, hkept, -, hstrategy, hget⟩ | ⟨hget, -⟩ :=
    (after strategy (later ++ earlier)).get_cases entity context
  · rw [hget]
    rw [strategy_after] at hstrategy
    subst hstrategy
    exact made_le_of_mem_shared (hfresh.resolve_left nofun) hkept
  · rw [hget]
    exact made_le_after later earlier

/-- **When two requests get the same copy.** What is handed out always is the index that was asked
for. It is the same copy for two requests exactly if copies are shared, the pool was not reset
between them, and they ask for the same entity in the same context. As many copies are kept as
different indices were asked for since the last reset, and none without sharing. -/
theorem copies_told_apart (strategy : IndexStrategy) (earlier between : List (Call ε))
    (entity entity' : ε) (context context' : Context ε) :
    let first := ((after strategy earlier).get entity context).1
    let second := ((after strategy (between ++ .get entity context :: earlier)).get
      entity' context').1
    first.index = ⟨entity, context⟩ ∧ second.index = ⟨entity', context'⟩ ∧
    (first.number = second.number ↔ strategy = .processorIntensive ∧ .reset ∉ between ∧
      entity = entity' ∧ context = context') ∧
    (after strategy earlier).size = sharedCount strategy earlier := by
  intro first second
  have hindex : first.index = ⟨entity, context⟩ := index_get _ _ _
  refine ⟨hindex, index_get _ _ _, ?_, size_after earlier⟩
  by_cases hfresh : strategy = .memoryIntensive ∨ .reset ∈ between
  · have hfirst : first.number < (after strategy (.get entity context :: earlier)).made :=
      number_get_lt (sound_after earlier) entity context
    have hsecond : _ ≤ second.number := made_le_number_get _ hfresh entity' context'
    refine iff_of_false (Nat.ne_of_lt (hfirst.trans_le hsecond)) ?_
    rintro ⟨rfl, hreset, -⟩
    exact hfresh.elim nofun hreset
  · obtain ⟨hmemory, hreset⟩ := not_or.mp hfresh
    have hshared : strategy = .processorIntensive := by
      cases strategy with
      | memoryIntensive => exact absurd rfl hmemory
      | processorIntensive => rfl
    have hkept : first ∈ (after strategy (.get entity context :: earlier)).shared :=
      mem_shared_get ((strategy_after earlier).trans hshared) entity context
    rw [number_get_eq_iff (sound_after _) ((strategy_after _).trans hshared)
      (mem_shared_after hkept hreset), hindex, Index.mk.injEq]
    simp [hshared, hreset]

end ValueFlow.IndexPool
