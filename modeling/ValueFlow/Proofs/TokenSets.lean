import Mathlib.Data.Finset.Card
import ValueFlow.Token

/-!
# Two kinds of token sets

Sets of symbols are kept as increasing lists, which merge in one walk and are searched by halves.
Any other set of tokens could be a balanced search tree. Here both kinds are compared, call by
call, and the lists with finite sets.

* `SetKind`: what a kind of token sets offers; `SetKind.sorted` and `SetKind.tree` are the two;
* `SortedSet.toFinset`: an increasing list as a finite set, with one law for each operation;
* `Same`, `perform_same`, `run_same`: a list and a tree with the same tokens go on to have the same
  tokens, and answer alike;
* `sorted_sets_faithful`: all of this together.
-/

namespace ValueFlow

open Std (TreeSet)

/-! ## 1. Kinds of sets -/

/-- **What a kind of token sets offers.** -/
structure SetKind (σ : Type) where
  new : σ
  singleton : Symbol → σ
  /-- from any list, in any order and with repetitions -/
  ofTokens : List Symbol → σ
  addAll : σ → σ → σ
  diff : σ → σ → σ
  /-- answers whether the token was missing -/
  insert : σ → Symbol → Bool × σ
  retain : σ → (Symbol → Bool) → σ
  contains : σ → Symbol → Bool
  isEmpty : σ → Bool
  size : σ → Nat
  values : σ → List Symbol
  isSubset : σ → σ → Bool
  equal : σ → σ → Bool

namespace SetKind

/-- Increasing lists. -/
def sorted : SetKind (SortedSet Symbol) where
  new := ∅
  singleton := SortedSet.singleton
  ofTokens := SortedSet.ofList
  addAll s t := s ∪ t
  diff s t := s \ t
  insert := SortedSet.add
  retain := SortedSet.filter
  contains := SortedSet.contains
  isEmpty := SortedSet.isEmpty
  size := SortedSet.size
  values := SortedSet.elements
  isSubset := SortedSet.isSubset
  equal s t := s = t

/-- Balanced search trees. Several tokens are put in one by one. -/
def tree : SetKind (TreeSet Symbol) where
  new := ∅
  singleton a := TreeSet.insert ∅ a
  ofTokens xs := TreeSet.insertMany ∅ xs
  addAll s t := s.insertMany t.toList
  diff s t := TreeSet.insertMany ∅ (s.toList.filter fun a => !t.contains a)
  insert s a :=
    let (present, s) := s.containsThenInsert a
    (!present, s)
  retain s keep := s.filter keep
  contains := TreeSet.contains
  isEmpty := TreeSet.isEmpty
  size := TreeSet.size
  values := TreeSet.toList
  isSubset s t := s.toList.all t.contains
  equal s t := s.toList = t.toList

end SetKind

/-- A call on sets that are kept under numbers: the first seven write a set, the others ask. -/
inductive SetCall where
  | new (target : Nat)
  | singleton (target : Nat) (token : Symbol)
  | ofTokens (target : Nat) (tokens : List Symbol)
  | addAll (target other : Nat)
  | diff (target left right : Nat)
  | insert (target : Nat) (token : Symbol)
  | retain (target : Nat) (keep : Symbol → Bool)
  | contains (source : Nat) (token : Symbol)
  | isEmpty (source : Nat)
  | size (source : Nat)
  | values (source : Nat)
  | isSubset (left right : Nat)
  | equal (left right : Nat)

inductive SetAnswer where
  | done
  | flag (value : Bool)
  | count (value : Nat)
  | tokens (value : List Symbol)
  deriving DecidableEq

namespace SetKind

variable {σ : Type}

/-- What a call does to the sets, and its answer. -/
def perform (kind : SetKind σ) (sets : Nat → σ) : SetCall → SetAnswer × (Nat → σ)
  | .new i => (.done, Function.update sets i kind.new)
  | .singleton i a => (.done, Function.update sets i (kind.singleton a))
  | .ofTokens i xs => (.done, Function.update sets i (kind.ofTokens xs))
  | .addAll i j => (.done, Function.update sets i (kind.addAll (sets i) (sets j)))
  | .diff i j k => (.done, Function.update sets i (kind.diff (sets j) (sets k)))
  | .insert i a =>
    let (missing, s) := kind.insert (sets i) a
    (.flag missing, Function.update sets i s)
  | .retain i keep => (.done, Function.update sets i (kind.retain (sets i) keep))
  | .contains i a => (.flag (kind.contains (sets i) a), sets)
  | .isEmpty i => (.flag (kind.isEmpty (sets i)), sets)
  | .size i => (.count (kind.size (sets i)), sets)
  | .values i => (.tokens (kind.values (sets i)), sets)
  | .isSubset i j => (.flag (kind.isSubset (sets i) (sets j)), sets)
  | .equal i j => (.flag (kind.equal (sets i) (sets j)), sets)

/-- The answers to a sequence of calls, and the sets after them. -/
def run (kind : SetKind σ) (sets : Nat → σ) : List SetCall → List SetAnswer × (Nat → σ)
  | [] => ([], sets)
  | call :: calls =>
    let (answer, sets) := kind.perform sets call
    let (answers, sets) := kind.run sets calls
    (answer :: answers, sets)

/-- A sequence of calls from the start, when all sets are new. -/
def after (kind : SetKind σ) (calls : List SetCall) : List SetAnswer × (Nat → σ) :=
  kind.run (fun _ => kind.new) calls

end SetKind

/-! ## 2. Increasing lists as finite sets -/

namespace SortedSet

variable {α : Type} [Ordered α] [DecidableEq α]

def toFinset (s : SortedSet α) : Finset α := s.elements.toFinset

@[simp] theorem mem_toFinset {s : SortedSet α} {a : α} : a ∈ s.toFinset ↔ a ∈ s :=
  List.mem_toFinset

variable (s t : SortedSet α)

theorem toFinset_empty : (∅ : SortedSet α).toFinset = ∅ := rfl

theorem toFinset_singleton (a : α) : (singleton a).toFinset = {a} := by
  ext b
  simp

theorem toFinset_ofList (xs : List α) : (ofList xs).toFinset = xs.toFinset := by
  ext b
  simp [mem_ofList]

theorem toFinset_union : (s ∪ t).toFinset = s.toFinset ∪ t.toFinset := by
  ext b
  simp

theorem toFinset_diff : (s \ t).toFinset = s.toFinset \ t.toFinset := by
  ext b
  simp

theorem toFinset_insert (a : α) : (s.insert a).toFinset = Insert.insert a s.toFinset := by
  ext b
  simp

theorem toFinset_filter (p : α → Bool) :
    (s.filter p).toFinset = s.toFinset.filter fun a => p a = true := by
  ext b
  simp

omit [DecidableEq α] in
theorem nodup_elements : s.elements.Nodup := s.sorted.imp Ordered.ne_of_lt

theorem card_toFinset : s.toFinset.card = s.size :=
  List.toFinset_card_of_nodup s.nodup_elements

theorem toFinset_eq_empty : s.toFinset = ∅ ↔ s.isEmpty = true := by
  rw [isEmpty_eq_true, Finset.eq_empty_iff_forall_notMem]
  simp

theorem toFinset_subset : s.toFinset ⊆ t.toFinset ↔ s.isSubset t = true := by
  rw [isSubset_eq_true, Finset.subset_iff]
  simp

theorem toFinset_inj : s.toFinset = t.toFinset ↔ s = t := by
  refine ⟨fun h => SortedSet.ext fun a => ?_, fun h => h ▸ rfl⟩
  rw [← mem_toFinset, h, mem_toFinset]

end SortedSet

/-! ## 3. Lists and trees -/

theorem compare_symbol_lt {a b : Symbol} : compare a b = .lt ↔ a < b := Std.compare_eq_lt

/-- The list and the tree have the same tokens. -/
def Same (s : SortedSet Symbol) (t : TreeSet Symbol) : Prop := ∀ a, a ∈ s ↔ a ∈ t

section Same

variable {s s' : SortedSet Symbol} {t t' : TreeSet Symbol}

theorem mem_insertMany {xs : List Symbol} {a : Symbol} :
    a ∈ t.insertMany xs ↔ a ∈ t ∨ a ∈ xs := by
  rw [TreeSet.mem_insertMany_list, List.contains_iff_mem]

/-- A tree lists its tokens in the order in which a list keeps them. -/
theorem Same.elements_eq (h : Same s t) : s.elements = t.toList := by
  have hsorted : t.toList.Pairwise (· < ·) :=
    TreeSet.ordered_toList.imp fun hab => compare_symbol_lt.mp hab
  have hset : s = ⟨t.toList, hsorted⟩ := SortedSet.ext fun a => by
    rw [h a, SortedSet.mem_def, TreeSet.mem_toList]
  exact congrArg SortedSet.elements hset

theorem same_new : Same SetKind.sorted.new SetKind.tree.new := fun a =>
  iff_of_false (SortedSet.not_mem_empty a) TreeSet.not_mem_emptyc

theorem same_ofTokens (xs : List Symbol) :
    Same (SetKind.sorted.ofTokens xs) (SetKind.tree.ofTokens xs) := fun a => by
  have hlist : a ∈ SetKind.sorted.ofTokens xs ↔ a ∈ xs := SortedSet.mem_ofList
  have htree : a ∈ SetKind.tree.ofTokens xs ↔ a ∈ (∅ : TreeSet Symbol) ∨ a ∈ xs := mem_insertMany
  rw [hlist, htree]
  exact (or_iff_right TreeSet.not_mem_emptyc).symm

theorem same_singleton (a : Symbol) :
    Same (SetKind.sorted.singleton a) (SetKind.tree.singleton a) := fun b => by
  have htree : b ∈ SetKind.tree.singleton a ↔ compare a b = .eq ∨ b ∈ (∅ : TreeSet Symbol) :=
    TreeSet.mem_insert
  rw [htree, Std.LawfulEqCmp.compare_eq_iff_eq, or_iff_left TreeSet.not_mem_emptyc, eq_comm]
  exact SortedSet.mem_singleton

theorem Same.addAll (h : Same s t) (h' : Same s' t') :
    Same (SetKind.sorted.addAll s s') (SetKind.tree.addAll t t') := fun a => by
  have htree : a ∈ SetKind.tree.addAll t t' ↔ a ∈ t ∨ a ∈ t'.toList := mem_insertMany
  rw [htree, TreeSet.mem_toList, ← h a, ← h' a]
  exact SortedSet.mem_union

theorem Same.diff (h : Same s t) (h' : Same s' t') :
    Same (SetKind.sorted.diff s s') (SetKind.tree.diff t t') := fun a => by
  have htree : a ∈ SetKind.tree.diff t t' ↔ a ∈ (∅ : TreeSet Symbol) ∨
      a ∈ t.toList.filter fun a => !t'.contains a := mem_insertMany
  have hmem : a ∈ t.toList.filter (fun a => !t'.contains a) ↔ a ∈ t ∧ a ∉ t' := by
    rw [List.mem_filter, TreeSet.mem_toList, Bool.not_eq_true', ← Bool.not_eq_true,
      TreeSet.contains_iff_mem]
  rw [htree, or_iff_right TreeSet.not_mem_emptyc, hmem, ← h a, ← h' a]
  exact SortedSet.mem_diff

theorem Same.retain (h : Same s t) (keep : Symbol → Bool) :
    Same (SetKind.sorted.retain s keep) (SetKind.tree.retain t keep) := fun a => by
  have htree : a ∈ SetKind.tree.retain t keep ↔ a ∈ t ∧ keep a = true := by
    rw [← TreeSet.mem_toList, ← TreeSet.mem_toList]
    show a ∈ (TreeSet.filter keep t).toList ↔ _
    rw [TreeSet.toList_filter, List.mem_filter]
  rw [htree, ← h a]
  exact SortedSet.mem_filter

theorem Same.contains (h : Same s t) (a : Symbol) :
    SetKind.sorted.contains s a = SetKind.tree.contains t a :=
  Bool.eq_iff_iff.mpr (SortedSet.contains_eq_true.trans (h a))

theorem Same.insert (h : Same s t) (a : Symbol) :
    (SetKind.sorted.insert s a).1 = (SetKind.tree.insert t a).1 ∧
      Same (SetKind.sorted.insert s a).2 (SetKind.tree.insert t a).2 := by
  refine ⟨?_, fun b => ?_⟩
  · show (s.add a).1 = !(t.containsThenInsert a).1
    rw [SortedSet.fst_add, TreeSet.containsThenInsert_fst]
    exact congrArg _ (h.contains a)
  · show b ∈ s.insert a ↔ b ∈ (t.containsThenInsert a).2
    rw [TreeSet.containsThenInsert_snd, TreeSet.mem_insert, Std.LawfulEqCmp.compare_eq_iff_eq,
      SortedSet.mem_insert, h b, eq_comm]

theorem Same.isSubset (h : Same s t) (h' : Same s' t') :
    SetKind.sorted.isSubset s s' = SetKind.tree.isSubset t t' := by
  refine Bool.eq_iff_iff.mpr (SortedSet.isSubset_eq_true.trans ?_)
  show _ ↔ t.toList.all t'.contains = true
  rw [List.all_eq_true, ← h.elements_eq]
  exact forall₂_congr fun a _ => h' a

theorem Same.equal (h : Same s t) (h' : Same s' t') :
    SetKind.sorted.equal s s' = SetKind.tree.equal t t' := by
  refine decide_eq_decide.mpr ?_
  rw [← h.elements_eq, ← h'.elements_eq]
  exact ⟨congrArg SortedSet.elements, fun e => SortedSet.ext fun a => by
    rw [SortedSet.mem_def, SortedSet.mem_def, e]⟩

end Same

/-! ## 4. Sequences of calls -/

section Calls

variable {sets : Nat → SortedSet Symbol} {trees : Nat → TreeSet Symbol}

theorem same_update (h : ∀ i, Same (sets i) (trees i)) {s : SortedSet Symbol}
    {t : TreeSet Symbol} (hnew : Same s t) (i : Nat) :
    ∀ j, Same (Function.update sets i s j) (Function.update trees i t j) := by
  intro j
  by_cases hj : j = i
  · subst hj
    rw [Function.update_self, Function.update_self]
    exact hnew
  · rw [Function.update_of_ne hj, Function.update_of_ne hj]
    exact h j

/-- **One call.** -/
theorem perform_same (h : ∀ i, Same (sets i) (trees i)) (call : SetCall) :
    (SetKind.sorted.perform sets call).1 = (SetKind.tree.perform trees call).1 ∧
      ∀ i, Same ((SetKind.sorted.perform sets call).2 i)
        ((SetKind.tree.perform trees call).2 i) := by
  cases call with
  | new i => exact ⟨rfl, same_update h same_new i⟩
  | singleton i a => exact ⟨rfl, same_update h (same_singleton a) i⟩
  | ofTokens i xs => exact ⟨rfl, same_update h (same_ofTokens xs) i⟩
  | addAll i j => exact ⟨rfl, same_update h ((h i).addAll (h j)) i⟩
  | diff i j k => exact ⟨rfl, same_update h ((h j).diff (h k)) i⟩
  | insert i a =>
    obtain ⟨hflag, hset⟩ := (h i).insert a
    exact ⟨congrArg SetAnswer.flag hflag, same_update h hset i⟩
  | retain i keep => exact ⟨rfl, same_update h ((h i).retain keep) i⟩
  -- the others only ask
  | contains i a => exact ⟨congrArg SetAnswer.flag ((h i).contains a), h⟩
  | isEmpty i =>
    refine ⟨congrArg SetAnswer.flag ?_, h⟩
    show (sets i).elements.isEmpty = (trees i).isEmpty
    rw [(h i).elements_eq, TreeSet.isEmpty_toList]
  | size i =>
    refine ⟨congrArg SetAnswer.count ?_, h⟩
    show (sets i).elements.length = (trees i).size
    rw [(h i).elements_eq, TreeSet.length_toList]
  | values i => exact ⟨congrArg SetAnswer.tokens (h i).elements_eq, h⟩
  | isSubset i j => exact ⟨congrArg SetAnswer.flag ((h i).isSubset (h j)), h⟩
  | equal i j => exact ⟨congrArg SetAnswer.flag ((h i).equal (h j)), h⟩

/-- **Any sequence of calls.** -/
theorem run_same (calls : List SetCall) : ∀ {sets : Nat → SortedSet Symbol}
    {trees : Nat → TreeSet Symbol}, (∀ i, Same (sets i) (trees i)) →
    (SetKind.sorted.run sets calls).1 = (SetKind.tree.run trees calls).1 ∧
      ∀ i, Same ((SetKind.sorted.run sets calls).2 i) ((SetKind.tree.run trees calls).2 i) := by
  induction calls with
  | nil => exact fun h => ⟨rfl, h⟩
  | cons call calls ih =>
    intro sets trees h
    obtain ⟨hanswer, hsets⟩ := perform_same h call
    obtain ⟨hanswers, hsets'⟩ := ih hsets
    exact ⟨congrArg₂ List.cons hanswer hanswers, hsets'⟩

end Calls

/-- **Increasing lists are faithful sets.** Whatever calls build a set, its tokens stand in
increasing order. Union, difference, insertion and filtering are those of finite sets, the search
tells membership, the length is the number of elements, and sets are equal exactly if their
elements are. So lists answer every sequence of calls as search trees do, and hold the same tokens
after it. -/
theorem sorted_sets_faithful :
    (∀ (calls : List SetCall) (i : Nat),
      ((SetKind.sorted.after calls).2 i).elements.Pairwise (· < ·)) ∧
    ((∅ : SortedSet Symbol).toFinset = ∅ ∧
      (∀ a : Symbol, (SortedSet.singleton a).toFinset = {a}) ∧
      ∀ xs : List Symbol, (SortedSet.ofList xs).toFinset = xs.toFinset) ∧
    (∀ s t : SortedSet Symbol,
      (s ∪ t).toFinset = s.toFinset ∪ t.toFinset ∧ (s \ t).toFinset = s.toFinset \ t.toFinset ∧
      (∀ a, (s.add a).2.toFinset = insert a s.toFinset ∧
        ((s.add a).1 = true ↔ a ∉ s.toFinset) ∧ (s.contains a = true ↔ a ∈ s.toFinset)) ∧
      (∀ p, (s.filter p).toFinset = s.toFinset.filter fun a => p a = true) ∧
      s.size = s.toFinset.card ∧ (s.isEmpty = true ↔ s.toFinset = ∅) ∧
      (s.isSubset t = true ↔ s.toFinset ⊆ t.toFinset) ∧ (s = t ↔ s.toFinset = t.toFinset)) ∧
    ∀ calls : List SetCall,
      (SetKind.sorted.after calls).1 = (SetKind.tree.after calls).1 ∧
        ∀ i, SetKind.sorted.values ((SetKind.sorted.after calls).2 i) =
          SetKind.tree.values ((SetKind.tree.after calls).2 i) := by
  refine ⟨fun calls i => SortedSet.sorted _,
    ⟨SortedSet.toFinset_empty, SortedSet.toFinset_singleton, SortedSet.toFinset_ofList⟩,
    fun s t => ?_, fun calls => ?_⟩
  · refine ⟨s.toFinset_union t, s.toFinset_diff t, fun a => ⟨s.toFinset_insert a, ?_, ?_⟩,
      s.toFinset_filter, s.card_toFinset.symm, s.toFinset_eq_empty.symm, (s.toFinset_subset t).symm,
      (s.toFinset_inj t).symm⟩
    · rw [SortedSet.fst_add, SortedSet.mem_toFinset, ← SortedSet.contains_eq_true]
      simp
    · rw [SortedSet.contains_eq_true, SortedSet.mem_toFinset]
  · obtain ⟨hanswers, hsets⟩ := run_same calls fun _ => same_new
    exact ⟨hanswers, fun i => (hsets i).elements_eq⟩

end ValueFlow
