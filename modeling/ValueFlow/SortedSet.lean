/-!
# Sorted sets

Finite sets over a linearly ordered type, kept as strictly increasing lists (`SymbolSet`). Token
sets are such sets, and so is the index that a node keeps of its successors.

Fixed here:

* `Ordered`: what the element type has to offer, a decidable strict linear order;
* the two list walks `merge` and `without`, which union and difference are made of;
* `search`, which finds the place of an element by halving, and `arranged`, which sorts a list and
  drops repetitions;
* `SortedSet` and its operations, each with the one law that says what it does to membership:
  `union` (`add_all`), `diff`, `add` and `insert`, `filter` (`retain`), `ofList` (`from_tokens`).

Main statements: `SortedSet.ext` (a set is determined by its members), `mem_union`, `mem_diff`,
`mem_insert`, `mem_filter`, `mem_ofList`, `contains_eq_true`.
-/

namespace ValueFlow

/-! ## 1. Linear orders -/

/-- **A decidable strict linear order.** -/
class Ordered (α : Type) extends LT α where
  decLt : ∀ a b : α, Decidable (a < b)
  irrefl : ∀ a : α, ¬ a < a
  trans : ∀ {a b c : α}, a < b → b < c → a < c
  eq_of_not_lt : ∀ {a b : α}, ¬ a < b → ¬ b < a → a = b

instance Ordered.decidableLT {α : Type} [Ordered α] (a b : α) : Decidable (a < b) :=
  Ordered.decLt a b

instance : Ordered Nat where
  decLt := inferInstance
  irrefl := Nat.lt_irrefl
  trans := Nat.lt_trans
  eq_of_not_lt h₁ h₂ := Nat.le_antisymm (Nat.le_of_not_lt h₂) (Nat.le_of_not_lt h₁)

instance : Ordered UInt32 where
  decLt := inferInstance
  irrefl := UInt32.lt_irrefl
  trans := UInt32.lt_trans
  eq_of_not_lt h₁ h₂ := UInt32.le_antisymm (UInt32.not_lt.mp h₂) (UInt32.not_lt.mp h₁)

/-- Text is ordered by code points. -/
instance : Ordered String where
  decLt := inferInstance
  irrefl := String.lt_irrefl
  trans := String.lt_trans
  eq_of_not_lt h₁ h₂ := String.le_antisymm (String.not_lt.mp h₂) (String.not_lt.mp h₁)

variable {α : Type} [Ordered α]

theorem Ordered.ne_of_lt {a b : α} (h : a < b) : a ≠ b :=
  fun e => Ordered.irrefl b (e ▸ h)

theorem Ordered.asymm {a b : α} (h : a < b) : ¬ b < a :=
  fun h' => Ordered.irrefl a (Ordered.trans h h')

/-- Equality is told by the order. -/
def Ordered.decEq (a b : α) : Decidable (a = b) :=
  if h : a < b then isFalse (Ordered.ne_of_lt h)
  else if h' : b < a then isFalse (Ne.symm (Ordered.ne_of_lt h'))
  else isTrue (Ordered.eq_of_not_lt h h')

/-- What is not below a bound stays above everything below it. -/
theorem Ordered.lt_of_lt_of_not_lt {a b c : α} (h : a < b) (h' : ¬ c < b) : a < c := by
  by_cases hbc : b < c
  · exact Ordered.trans h hbc
  · exact Ordered.eq_of_not_lt hbc h' ▸ h

theorem Ordered.lt_of_not_lt_of_lt {a b c : α} (h : ¬ b < a) (h' : b < c) : a < c := by
  by_cases hab : a < b
  · exact Ordered.trans hab h'
  · exact Ordered.eq_of_not_lt hab h ▸ h'

/-! ## 2. Walks over increasing lists -/

/-- The merge of two increasing lists: of two heads the smaller one comes first, and equal heads
are taken once. -/
@[semireducible]
def merge : List α → List α → List α
  | [], ys => ys
  | xs, [] => xs
  | x :: xs, y :: ys =>
    if x < y then x :: merge xs (y :: ys)
    else if y < x then y :: merge (x :: xs) ys
    else x :: merge xs ys
termination_by xs ys => xs.length + ys.length

/-- The elements of one increasing list that the other lacks. What lies below an element of the
first list is skipped in the second one for good. -/
def without : List α → List α → List α
  | [], _ => []
  | x :: xs, ys =>
    match ys.dropWhile (fun y => y < x) with
    | [] => x :: without xs []
    | y :: rest => if x < y then x :: without xs (y :: rest) else without xs (y :: rest)

theorem mem_merge {a : α} {xs ys : List α} : a ∈ merge xs ys ↔ a ∈ xs ∨ a ∈ ys := by
  fun_induction merge xs ys with
  | case1 ys => simp
  | case2 xs => simp
  | case3 x xs y ys hxy ih => rw [List.mem_cons, ih, List.mem_cons (b := x), or_assoc]
  | case4 x xs y ys hxy hyx ih =>
    rw [List.mem_cons, ih, List.mem_cons (b := y) (l := ys), or_left_comm]
  | case5 x xs y ys hxy hyx ih =>
    have e : x = y := Ordered.eq_of_not_lt hxy hyx
    subst e
    rw [List.mem_cons, ih, List.mem_cons, List.mem_cons, or_or_distrib_left]

theorem merge_sorted {xs ys : List α} (hx : xs.Pairwise (· < ·)) (hy : ys.Pairwise (· < ·)) :
    (merge xs ys).Pairwise (· < ·) := by
  fun_induction merge xs ys with
  | case1 ys => exact hy
  | case2 xs => exact hx
  | case3 x xs y ys hxy ih =>
    obtain ⟨hxs, hx'⟩ := List.pairwise_cons.mp hx
    refine List.pairwise_cons.mpr ⟨fun b hb => ?_, ih hx' hy⟩
    rcases mem_merge.mp hb with hb | hb
    · exact hxs b hb
    · rcases List.mem_cons.mp hb with rfl | hb
      · exact hxy
      · exact Ordered.trans hxy ((List.pairwise_cons.mp hy).1 b hb)
  | case4 x xs y ys _ hyx ih =>
    obtain ⟨hys, hy'⟩ := List.pairwise_cons.mp hy
    refine List.pairwise_cons.mpr ⟨fun b hb => ?_, ih hx hy'⟩
    rcases mem_merge.mp hb with hb | hb
    · rcases List.mem_cons.mp hb with rfl | hb
      · exact hyx
      · exact Ordered.trans hyx ((List.pairwise_cons.mp hx).1 b hb)
    · exact hys b hb
  | case5 x xs y ys hxy hyx ih =>
    obtain ⟨hxs, hx'⟩ := List.pairwise_cons.mp hx
    obtain ⟨hys, hy'⟩ := List.pairwise_cons.mp hy
    refine List.pairwise_cons.mpr ⟨fun b hb => ?_, ih hx' hy'⟩
    rcases mem_merge.mp hb with hb | hb
    · exact hxs b hb
    · exact Ordered.eq_of_not_lt hxy hyx ▸ hys b hb

theorem without_sublist (xs ys : List α) : (without xs ys).Sublist xs := by
  induction xs generalizing ys with
  | nil => simp [without]
  | cons x xs ih =>
    rw [without]
    split
    · exact (ih _).cons_cons x
    · split
      · exact (ih _).cons_cons x
      · exact (ih _).cons x

omit [Ordered α] in
theorem of_mem_takeWhile {p : α → Bool} {xs : List α} {a : α} (h : a ∈ xs.takeWhile p) :
    p a = true :=
  List.all_eq_true.mp List.all_takeWhile a h

/-- What is dropped for lying below `x` is not among what does not lie below it. -/
theorem mem_dropWhile_of_not_lt {x b : α} {ys : List α} (hb : ¬ b < x) :
    b ∈ ys.dropWhile (fun y => y < x) ↔ b ∈ ys := by
  refine ⟨fun h => (List.dropWhile_sublist _).subset h, fun h => ?_⟩
  rw [← List.takeWhile_append_dropWhile (p := fun y => decide (y < x)) (l := ys),
    List.mem_append] at h
  exact h.resolve_left fun h => hb (by simpa using of_mem_takeWhile h)

/-- An element that the second list has is left out. -/
theorem without_cons_of_mem {x : α} {xs ys : List α} (hy : ys.Pairwise (· < ·)) (h : x ∈ ys) :
    without (x :: xs) ys = without xs (ys.dropWhile fun y => y < x) := by
  have hdrop := hy.sublist (List.dropWhile_sublist (fun y => decide (y < x)))
  rw [← mem_dropWhile_of_not_lt (Ordered.irrefl x)] at h
  rw [without]
  cases hd : ys.dropWhile (fun y => decide (y < x)) with
  | nil =>
    rw [hd] at h
    cases h
  | cons y rest =>
    rw [hd] at h hdrop
    refine if_neg fun hxy => ?_
    rcases List.mem_cons.mp h with rfl | h
    · exact Ordered.irrefl x hxy
    · exact Ordered.asymm hxy ((List.pairwise_cons.mp hdrop).1 x h)

/-- All others are kept. -/
theorem without_cons_of_not_mem {x : α} {xs ys : List α} (h : x ∉ ys) :
    without (x :: xs) ys = x :: without xs (ys.dropWhile fun y => y < x) := by
  rw [without]
  cases hd : ys.dropWhile (fun y => decide (y < x)) with
  | nil => rfl
  | cons y rest =>
    have hyx : ¬ y < x := by
      have := List.head?_dropWhile_not (fun y => decide (y < x)) ys
      rw [hd] at this
      simpa using this
    have hy : y ∈ ys := (List.dropWhile_sublist _).subset (hd ▸ List.mem_cons_self)
    refine if_pos (Decidable.not_not.mp fun hxy => h ?_)
    exact Ordered.eq_of_not_lt hxy hyx ▸ hy

theorem mem_without {a : α} {xs ys : List α} (hx : xs.Pairwise (· < ·))
    (hy : ys.Pairwise (· < ·)) : a ∈ without xs ys ↔ a ∈ xs ∧ a ∉ ys := by
  induction xs generalizing ys with
  | nil => simp [without]
  | cons x xs ih =>
    obtain ⟨hxs, hx'⟩ := List.pairwise_cons.mp hx
    have hrest := ih hx' (hy.sublist (List.dropWhile_sublist (fun y => decide (y < x))))
    -- what is skipped lies below `x`, and so below the rest of the first list
    have hkept : a ∈ xs → (a ∉ ys.dropWhile (fun y => y < x) ↔ a ∉ ys) := fun ha =>
      not_congr (mem_dropWhile_of_not_lt (Ordered.asymm (hxs a ha)))
    by_cases h : x ∈ ys
    · rw [without_cons_of_mem hy h, hrest, List.mem_cons]
      constructor
      · exact fun ⟨ha, hn⟩ => ⟨.inr ha, (hkept ha).mp hn⟩
      · rintro ⟨rfl | ha, hn⟩
        · exact absurd h hn
        · exact ⟨ha, (hkept ha).mpr hn⟩
    · rw [without_cons_of_not_mem h, List.mem_cons, hrest, List.mem_cons]
      constructor
      · rintro (rfl | ⟨ha, hn⟩)
        · exact ⟨.inl rfl, h⟩
        · exact ⟨.inr ha, (hkept ha).mp hn⟩
      · rintro ⟨rfl | ha, hn⟩
        · exact .inl rfl
        · exact .inr ⟨ha, (hkept ha).mpr hn⟩

/-! ## 3. Searching by halves -/

/-- Where an element stands, or where it would have to stand. -/
inductive Place where
  | here (index : Nat)
  | gap (index : Nat)
  deriving DecidableEq, Repr

/-- Narrow the `size` places from `base` on down to one. If the element in the middle is above `a`,
the search goes on before it, and otherwise from it on. -/
@[semireducible]
def narrow (xs : List α) (a : α) (base size : Nat) : Nat :=
  if size ≤ 1 then base
  else
    let middle := base + size / 2
    let above := xs[middle]?.all fun x => decide (a < x)
    narrow xs a (if above then base else middle) (size - size / 2)
termination_by size

/-- The place of an element in an increasing list. -/
def search (xs : List α) (a : α) : Place :=
  let base := narrow xs a 0 xs.length
  match xs[base]? with
  | none => .gap base
  | some x => if x < a then .gap (base + 1) else if a < x then .gap base else .here base

/-- **What the search knows**: the element at `base` is not above `a`, unless this is the first
place, and everything `size` places further is. -/
structure Narrowed (xs : List α) (a : α) (base size : Nat) : Prop where
  fits : base + size ≤ xs.length
  low : base = 0 ∨ ∃ x, xs[base]? = some x ∧ ¬ a < x
  high : ∀ x ∈ xs.drop (base + size), a < x

theorem drop_above {xs : List α} {a x : α} {i : Nat} (hs : xs.Pairwise (· < ·))
    (hx : xs[i]? = some x) (hax : a < x) : ∀ y ∈ xs.drop i, a < y := by
  obtain ⟨hi, rfl⟩ := List.getElem?_eq_some_iff.mp hx
  have hdrop := hs.sublist (List.drop_sublist i xs)
  rw [List.drop_eq_getElem_cons hi] at hdrop ⊢
  refine List.forall_mem_cons.mpr ⟨hax, fun y hy => ?_⟩
  exact Ordered.trans hax ((List.pairwise_cons.mp hdrop).1 y hy)

/-- In an increasing list, what stands before an element that is not above `a` is below `a`. -/
theorem take_below {xs : List α} {a x : α} {i : Nat} (hs : xs.Pairwise (· < ·))
    (hx : xs[i]? = some x) (hax : ¬ a < x) : ∀ y ∈ xs.take i, y < a := by
  obtain ⟨hi, rfl⟩ := List.getElem?_eq_some_iff.mp hx
  intro y hy
  rw [← List.take_append_drop i xs, List.pairwise_append, List.drop_eq_getElem_cons hi] at hs
  exact Ordered.lt_of_lt_of_not_lt (hs.2.2 y hy _ List.mem_cons_self) hax

theorem Narrowed.step {xs : List α} {a : α} {base size : Nat} (hs : xs.Pairwise (· < ·))
    (h : Narrowed xs a base size) (hsize : ¬ size ≤ 1) :
    Narrowed xs a
      (if xs[base + size / 2]?.all fun x => decide (a < x) then base else base + size / 2)
      (size - size / 2) := by
  have hfits := h.fits
  have hmiddle : base + size / 2 < xs.length := by omega
  rw [List.getElem?_eq_getElem hmiddle, Option.all_some]
  by_cases hax : a < xs[base + size / 2]
  · rw [if_pos (decide_eq_true hax)]
    refine ⟨by omega, h.low, fun x hx => ?_⟩
    have habove := drop_above hs (List.getElem?_eq_getElem hmiddle) hax
    have hle : base + size / 2 ≤ base + (size - size / 2) := by omega
    exact habove x ((List.drop_sublist_drop_left xs hle).subset hx)
  · rw [if_neg (by simpa using hax)]
    refine ⟨by omega, .inr ⟨_, List.getElem?_eq_getElem hmiddle, hax⟩, ?_⟩
    rw [show base + size / 2 + (size - size / 2) = base + size by omega]
    exact h.high

theorem narrowed_narrow {xs : List α} {a : α} {base size : Nat} (hs : xs.Pairwise (· < ·))
    (h : Narrowed xs a base size) : ∃ size' ≤ 1, Narrowed xs a (narrow xs a base size) size' := by
  fun_induction narrow xs a base size with
  | case1 base size hsize => exact ⟨size, hsize, h⟩
  | case2 base size hsize middle above ih => exact ih (h.step hs hsize)

theorem narrowed_search {xs : List α} (hs : xs.Pairwise (· < ·)) (a : α) :
    ∃ size ≤ 1, Narrowed xs a (narrow xs a 0 xs.length) size :=
  narrowed_narrow hs ⟨by omega, .inl rfl, by simp⟩

theorem getElem?_of_search_here {xs : List α} {a : α} {i : Nat} (h : search xs a = .here i) :
    xs[i]? = some a := by
  unfold search at h
  dsimp only at h
  split at h
  · cases h
  · rename_i x hx
    split at h
    · cases h
    · rename_i hxa
      split at h
      · cases h
      · rename_i hax
        cases h
        rw [hx, Ordered.eq_of_not_lt hxa hax]

/-- **A gap divides the list** into what is below the element and what is above it. -/
theorem of_search_gap {xs : List α} {a : α} {i : Nat} (hs : xs.Pairwise (· < ·))
    (h : search xs a = .gap i) : (∀ x ∈ xs.take i, x < a) ∧ ∀ x ∈ xs.drop i, a < x := by
  obtain ⟨size, hsize, hn⟩ := narrowed_search hs a
  unfold search at h
  dsimp only at h
  generalize narrow xs a 0 xs.length = base at h hn
  have hnext : ∀ x ∈ xs.drop (base + 1), a < x := fun x hx =>
    hn.high x ((List.drop_sublist_drop_left xs (by omega)).subset hx)
  split at h
  · -- only in an empty list there is nothing at the place that is left
    rename_i hnone
    cases h
    rw [List.getElem?_eq_none_iff] at hnone
    rw [List.drop_eq_nil_of_le hnone]
    rcases hn.low with rfl | ⟨x, hx, -⟩
    · exact ⟨by simp, nofun⟩
    · rw [List.getElem?_eq_none hnone] at hx
      cases hx
  · rename_i x hx
    obtain ⟨hlt, rfl⟩ := List.getElem?_eq_some_iff.mp hx
    split at h
    · rename_i hxa
      cases h
      refine ⟨fun y hy => ?_, hnext⟩
      rw [List.take_add_one, hx, Option.toList_some, List.mem_append, List.mem_singleton] at hy
      rcases hy with hy | rfl
      · exact take_below hs hx (Ordered.asymm hxa) y hy
      · exact hxa
    · split at h
      · rename_i hax
        cases h
        refine ⟨fun y hy => ?_, drop_above hs hx hax⟩
        rcases hn.low with rfl | ⟨x, hx', hax'⟩
        · simp at hy
        · cases hx.symm.trans hx'
          exact absurd hax hax'
      · cases h

theorem not_mem_of_search_gap {xs : List α} {a : α} {i : Nat} (hs : xs.Pairwise (· < ·))
    (h : search xs a = .gap i) : a ∉ xs := fun ha => by
  obtain ⟨hlow, hhigh⟩ := of_search_gap hs h
  rw [← List.take_append_drop i xs, List.mem_append] at ha
  exact ha.elim (fun ha => Ordered.irrefl a (hlow a ha)) fun ha => Ordered.irrefl a (hhigh a ha)

/-- An element that is put into its gap keeps the list increasing. -/
theorem sorted_of_search_gap {xs : List α} {a : α} {i : Nat} (hs : xs.Pairwise (· < ·))
    (h : search xs a = .gap i) : (xs.take i ++ a :: xs.drop i).Pairwise (· < ·) := by
  obtain ⟨hlow, hhigh⟩ := of_search_gap hs h
  have hsplit := hs
  rw [← List.take_append_drop i xs, List.pairwise_append] at hsplit
  refine List.pairwise_append.mpr
    ⟨hsplit.1, List.pairwise_cons.mpr ⟨hhigh, hsplit.2.1⟩, fun x hx y hy => ?_⟩
  rcases List.mem_cons.mp hy with rfl | hy
  · exact hlow x hx
  · exact Ordered.trans (hlow x hx) (hhigh y hy)

/-! ## 4. Arranging any list -/

/-- Put an element in front of the first one that is not below it. -/
def placed (x : α) : List α → List α
  | [] => [x]
  | y :: ys => if y < x then y :: placed x ys else x :: y :: ys

/-- Drop an element if the next one equals it. -/
def dropRepeats : List α → List α
  | x :: y :: ys =>
    if x < y ∨ y < x then x :: dropRepeats (y :: ys) else dropRepeats (y :: ys)
  | xs => xs

/-- A list in order and without repetitions. -/
def arranged (xs : List α) : List α := dropRepeats (xs.foldr placed [])

theorem mem_placed {a x : α} {ys : List α} : a ∈ placed x ys ↔ a = x ∨ a ∈ ys := by
  induction ys with
  | nil => simp [placed]
  | cons y ys ih =>
    rw [placed]
    split
    · rw [List.mem_cons, ih, List.mem_cons, or_left_comm]
    · rw [List.mem_cons]

theorem placed_sorted {x : α} {ys : List α} (hs : ys.Pairwise (¬ · > ·)) :
    (placed x ys).Pairwise (¬ · > ·) := by
  induction ys with
  | nil => simp [placed]
  | cons y ys ih =>
    obtain ⟨hy, hys⟩ := List.pairwise_cons.mp hs
    rw [placed]
    split
    · rename_i hyx
      refine List.pairwise_cons.mpr ⟨fun b hb => ?_, ih hys⟩
      rcases mem_placed.mp hb with rfl | hb
      · exact Ordered.asymm hyx
      · exact hy b hb
    · rename_i hyx
      refine List.pairwise_cons.mpr ⟨fun b hb hbx => ?_, hs⟩
      rcases List.mem_cons.mp hb with rfl | hb
      · exact hyx hbx
      · exact hyx (Ordered.lt_of_not_lt_of_lt (hy b hb) hbx)

theorem mem_dropRepeats {a : α} {xs : List α} : a ∈ dropRepeats xs ↔ a ∈ xs := by
  fun_induction dropRepeats xs with
  | case1 x y ys hne ih => rw [List.mem_cons, ih, List.mem_cons (b := x)]
  | case2 x y ys heq ih =>
    rw [not_or] at heq
    have e : x = y := Ordered.eq_of_not_lt heq.1 heq.2
    rw [ih, e]
    simp
  | case3 xs => rfl

theorem dropRepeats_sorted {xs : List α} (hs : xs.Pairwise (¬ · > ·)) :
    (dropRepeats xs).Pairwise (· < ·) := by
  fun_induction dropRepeats xs with
  | case1 x y ys hne ih =>
    obtain ⟨hx, hys⟩ := List.pairwise_cons.mp hs
    have hxy : x < y := hne.resolve_right (hx y List.mem_cons_self)
    refine List.pairwise_cons.mpr ⟨fun b hb => ?_, ih hys⟩
    rcases List.mem_cons.mp (mem_dropRepeats.mp hb) with rfl | hb
    · exact hxy
    · exact Ordered.lt_of_lt_of_not_lt hxy ((List.pairwise_cons.mp hys).1 b hb)
  | case2 x y ys _ ih => exact ih (List.pairwise_cons.mp hs).2
  | case3 xs hshort =>
    cases xs with
    | nil => exact List.Pairwise.nil
    | cons x xs =>
      cases xs with
      | nil => exact List.pairwise_singleton _ x
      | cons y ys => exact absurd rfl (hshort x y ys)

theorem mem_arranged {a : α} {xs : List α} : a ∈ arranged xs ↔ a ∈ xs := by
  rw [arranged, mem_dropRepeats]
  induction xs with
  | nil => rfl
  | cons x xs ih => rw [List.foldr_cons, mem_placed, ih, List.mem_cons]

theorem arranged_sorted (xs : List α) : (arranged xs).Pairwise (· < ·) := by
  refine dropRepeats_sorted ?_
  induction xs with
  | nil => exact List.Pairwise.nil
  | cons x xs ih => exact placed_sorted ih

/-! ## 5. The sets -/

/-- **A finite set as the increasing list of its elements.** -/
structure SortedSet (α : Type) [Ordered α] where
  elements : List α
  sorted : elements.Pairwise (· < ·)

namespace SortedSet

instance [DecidableEq α] : DecidableEq (SortedSet α) := fun a b =>
  decidable_of_iff (a.elements = b.elements)
    ⟨fun h => by cases a; cases b; cases h; rfl, fun h => h ▸ rfl⟩

instance : Membership α (SortedSet α) := ⟨fun s a => a ∈ s.elements⟩

theorem mem_def {a : α} {s : SortedSet α} : a ∈ s ↔ a ∈ s.elements := Iff.rfl

def empty : SortedSet α := ⟨[], List.Pairwise.nil⟩

instance : EmptyCollection (SortedSet α) := ⟨empty⟩

instance : Inhabited (SortedSet α) := ⟨empty⟩

def singleton (a : α) : SortedSet α := ⟨[a], List.pairwise_singleton _ a⟩

def isEmpty (s : SortedSet α) : Bool := s.elements.isEmpty

def size (s : SortedSet α) : Nat := s.elements.length

/-- Membership, by searching. -/
def contains (s : SortedSet α) (a : α) : Bool :=
  match search s.elements a with
  | .here _ => true
  | .gap _ => false

def union (s t : SortedSet α) : SortedSet α :=
  ⟨merge s.elements t.elements, merge_sorted s.sorted t.sorted⟩

instance : Union (SortedSet α) := ⟨union⟩

def diff (s t : SortedSet α) : SortedSet α :=
  ⟨without s.elements t.elements, s.sorted.sublist (without_sublist _ _)⟩

instance : SDiff (SortedSet α) := ⟨diff⟩

/-- Put an element in its place; answers whether it was missing. -/
def add (s : SortedSet α) (a : α) : Bool × SortedSet α :=
  match h : search s.elements a with
  | .here _ => (false, s)
  | .gap i => (true, ⟨s.elements.take i ++ a :: s.elements.drop i, sorted_of_search_gap s.sorted h⟩)

def insert (s : SortedSet α) (a : α) : SortedSet α := (s.add a).2

def filter (s : SortedSet α) (p : α → Bool) : SortedSet α :=
  ⟨s.elements.filter p, s.sorted.sublist List.filter_sublist⟩

/-- The `n` smallest elements. -/
def smallest (s : SortedSet α) (n : Nat) : SortedSet α :=
  ⟨s.elements.take n, s.sorted.sublist (List.take_sublist n s.elements)⟩

/-- The set of the elements of any list, in any order and with repetitions. -/
def ofList (xs : List α) : SortedSet α := ⟨arranged xs, arranged_sorted xs⟩

/-- The set of the images. -/
def map (s : SortedSet α) (f : α → α) : SortedSet α := ofList (s.elements.map f)

def isSubset (s t : SortedSet α) : Bool := (s \ t).isEmpty

/-! ## 6. What the operations do to membership -/

/-- **A set is determined by its members.** -/
theorem ext {s t : SortedSet α} (h : ∀ a, a ∈ s ↔ a ∈ t) : s = t := by
  obtain ⟨xs, hx⟩ := s
  obtain ⟨ys, hy⟩ := t
  have heads : ∀ {a b : α} {as bs : List α}, (a :: as).Pairwise (· < ·) →
      (b :: bs).Pairwise (· < ·) → a ∈ b :: bs → ¬ a < b := by
    intro a b as bs _ hb hab
    rcases List.mem_cons.mp hab with rfl | hab
    · exact Ordered.irrefl a
    · exact Ordered.asymm ((List.pairwise_cons.mp hb).1 a hab)
  suffices xs = ys by subst this; rfl
  change ∀ a, a ∈ xs ↔ a ∈ ys at h
  induction xs generalizing ys with
  | nil =>
    cases ys with
    | nil => rfl
    | cons y ys => exact absurd ((h y).mpr List.mem_cons_self) List.not_mem_nil
  | cons x xs ih =>
    cases ys with
    | nil => exact absurd ((h x).mp List.mem_cons_self) List.not_mem_nil
    | cons y ys =>
      have hxs := List.pairwise_cons.mp hx
      have hys := List.pairwise_cons.mp hy
      have e : x = y := Ordered.eq_of_not_lt
        (heads hx hy ((h x).mp List.mem_cons_self))
        (heads hy hx ((h y).mpr List.mem_cons_self))
      subst e
      refine congrArg (x :: ·) (ih hxs.2 ys hys.2 fun a => ⟨fun ha => ?_, fun ha => ?_⟩)
      · rcases List.mem_cons.mp ((h a).mp (List.mem_cons_of_mem _ ha)) with rfl | h'
        · exact absurd (hxs.1 a ha) (Ordered.irrefl a)
        · exact h'
      · rcases List.mem_cons.mp ((h a).mpr (List.mem_cons_of_mem _ ha)) with rfl | h'
        · exact absurd (hys.1 a ha) (Ordered.irrefl a)
        · exact h'

@[simp] theorem not_mem_empty (a : α) : a ∉ (∅ : SortedSet α) := List.not_mem_nil

@[simp] theorem mem_singleton {a b : α} : a ∈ singleton b ↔ a = b := List.mem_singleton

@[simp] theorem mem_union {a : α} {s t : SortedSet α} : a ∈ s ∪ t ↔ a ∈ s ∨ a ∈ t :=
  mem_merge

@[simp] theorem mem_diff {a : α} {s t : SortedSet α} : a ∈ s \ t ↔ a ∈ s ∧ a ∉ t :=
  mem_without s.sorted t.sorted

@[simp] theorem mem_insert {a b : α} {s : SortedSet α} : a ∈ s.insert b ↔ a = b ∨ a ∈ s := by
  unfold insert add
  split
  · rename_i i h
    refine ⟨.inr, fun h' => h'.elim (fun e => ?_) id⟩
    exact e ▸ List.mem_of_getElem? (getElem?_of_search_here h)
  · rename_i i _
    have hsplit : a ∈ s ↔ a ∈ s.elements.take i ∨ a ∈ s.elements.drop i := by
      rw [← List.mem_append, List.take_append_drop]
      exact Iff.rfl
    rw [hsplit, mem_def, List.mem_append, List.mem_cons, or_left_comm]

@[simp] theorem mem_filter {a : α} {s : SortedSet α} {p : α → Bool} :
    a ∈ s.filter p ↔ a ∈ s ∧ p a = true := List.mem_filter

theorem mem_ofList {a : α} {xs : List α} : a ∈ ofList xs ↔ a ∈ xs := mem_arranged

theorem contains_eq_true {a : α} {s : SortedSet α} : s.contains a = true ↔ a ∈ s := by
  unfold contains
  split
  · rename_i h
    exact iff_of_true rfl (List.mem_of_getElem? (getElem?_of_search_here h))
  · rename_i h
    exact iff_of_false Bool.false_ne_true (not_mem_of_search_gap s.sorted h)

theorem fst_add {a : α} {s : SortedSet α} : (s.add a).1 = !s.contains a := by
  unfold add contains
  split <;> simp [*]

instance (a : α) (s : SortedSet α) : Decidable (a ∈ s) :=
  have : DecidableEq α := Ordered.decEq
  inferInstanceAs (Decidable (a ∈ s.elements))

theorem isEmpty_eq_true {s : SortedSet α} : s.isEmpty = true ↔ ∀ a, a ∉ s := by
  rw [isEmpty, List.isEmpty_iff, List.eq_nil_iff_forall_not_mem]
  exact Iff.rfl

theorem isSubset_eq_true {s t : SortedSet α} :
    s.isSubset t = true ↔ ∀ a, a ∈ s → a ∈ t := by
  rw [isSubset, isEmpty_eq_true]
  simp only [mem_diff, not_and, Decidable.not_not]

end SortedSet

/-- The tokens that a node holds or that travel along an edge. -/
abbrev TokenSet (τ : Type) [Ordered τ] := SortedSet τ

end ValueFlow
