import Mathlib.Data.Finset.Card
import ValueFlow.Proofs.Work.Bag

/-!
# A bag is a set

Removing an item leaves its entry in the queue, so the queue may hold an item several times, between
entries of items that are gone. None of this can be told from the answers: whatever calls are made
on a new bag, it answers like a set of items. Only which of them is handed out next, and in which
order they are drained, is a matter of the queue.

* `Exchange.Fits`, `Exchange.after`: what a set answers to a call, and what the call makes of it;
* `Past`, `held`: the calls on a bag so far, and the set that they make;
* `sound_call`, `fits_call`, `toFinset_present_call`: what one call does;
* `Past.answers_like_set`: whatever was called so far, the bag goes on like that set.
-/

namespace ValueFlow.Bag

/-! ## 1. Calls -/

/-- **A call on a bag.** -/
inductive Call (α : Type) where
  | add (a : α)
  | take
  | remove (a : α)
  | contains (a : α)
  | drain
  | clear
  deriving DecidableEq, Repr

inductive Answer (α : Type) where
  | flag (yes : Bool)
  | item (a : Option α)
  | items (as : List α)
  | done
  deriving DecidableEq, Repr

/-- A call and its answer. -/
structure Exchange (α : Type) where
  call : Call α
  answer : Answer α
  deriving DecidableEq, Repr

variable {α : Type} [DecidableEq α]

/-- Make a call. -/
def call (b : Bag α) : Call α → Answer α × Bag α
  | .add a => (.flag (b.add a).1, (b.add a).2)
  | .take => (.item b.take.1, b.take.2)
  | .remove a => (.flag (b.remove a).1, (b.remove a).2)
  | .contains a => (.flag (b.contains a), b)
  | .drain => (.items b.drain.1, b.drain.2)
  | .clear => (.done, b.clear)

/-- What a bag answers to one call after the other. -/
def answers (b : Bag α) : List (Call α) → List (Answer α)
  | [] => []
  | c :: calls => (b.call c).1 :: (b.call c).2.answers calls

/-- **The calls on a new bag so far**, the last one first, and the bag after them. -/
inductive Past (order : BagOrder) : List (Exchange α) → Bag α → Prop where
  | new : Past order [] (.empty order)
  | call {log b} (c : Call α) : Past order log b →
      Past order (⟨c, (b.call c).1⟩ :: log) (b.call c).2

/-- Make one call after the other on a new bag, and write down the answers. -/
def history (order : BagOrder) (calls : List (Call α)) : List (Exchange α) × Bag α :=
  calls.foldl (fun past c => (⟨c, (past.2.call c).1⟩ :: past.1, (past.2.call c).2))
    ([], .empty order)

theorem past_history (order : BagOrder) (calls : List (Call α)) :
    Past order (history order calls).1 (history order calls).2 :=
  List.foldlRecOn (motive := fun past : List (Exchange α) × Bag α => Past order past.1 past.2)
    calls _ .new fun _ h c _ => h.call c

/-! ## 2. Sets -/

namespace Exchange

/-- **The answer is that of a set of items.** A set may hand out any of its items, and may list them
in any order. -/
def Fits (s : Finset α) : Exchange α → Prop
  | ⟨.add a, answer⟩ => answer = .flag (decide (a ∉ s))
  | ⟨.take, answer⟩ => s = ∅ ∧ answer = .item none ∨ ∃ a ∈ s, answer = .item (some a)
  | ⟨.remove a, answer⟩ => answer = .flag (decide (a ∈ s))
  | ⟨.contains a, answer⟩ => answer = .flag (decide (a ∈ s))
  | ⟨.drain, answer⟩ => ∃ items : List α, answer = .items items ∧ items.Nodup ∧ items.toFinset = s
  | ⟨.clear, answer⟩ => answer = .done

/-- **What becomes of a set of items** by a call that is answered so. -/
def after (s : Finset α) : Exchange α → Finset α
  | ⟨.add a, _⟩ => insert a s
  | ⟨.take, .item (some a)⟩ => s.erase a
  | ⟨.remove a, _⟩ => s.erase a
  | ⟨.drain, _⟩ => ∅
  | ⟨.clear, _⟩ => ∅
  | _ => s

end Exchange

/-- **The items that are present** after the calls so far. -/
def held : List (Exchange α) → Finset α
  | [] => ∅
  | e :: earlier => e.after (held earlier)

/-! ## 3. One call -/

section OneCall

variable {b : Bag α}

theorem Sound.take_of_none (h : b.Sound) (ht : b.take.1 = none) : b.take.2.present = [] :=
  (present_of_take_none (Prod.ext ht rfl)).trans (take_eq_none h ht)

omit [DecidableEq α] in
theorem sound_of_present_nil (h : b.present = []) : b.Sound :=
  ⟨h ▸ List.nodup_nil, fun _ ha => absurd (h ▸ ha) List.not_mem_nil⟩

theorem sound_call (h : b.Sound) (c : Call α) : (b.call c).2.Sound := by
  cases c with
  | add a => exact h.add a
  | remove a => exact h.remove a
  | contains a => exact h
  | drain | clear => exact sound_empty b.order
  | take =>
    cases ht : b.take.1 with
    | none => exact sound_of_present_nil (h.take_of_none ht)
    | some a => exact (take_eq_some h (Prod.ext ht rfl)).2.2

/-- **A bag answers like the set of its items.** -/
theorem fits_call (h : b.Sound) (c : Call α) :
    (⟨c, (b.call c).1⟩ : Exchange α).Fits b.present.toFinset := by
  cases c with
  | add a =>
    show Answer.flag (b.add a).1 = _
    by_cases ha : b.contains a = true
    · have hmem := contains_eq_true.mp ha
      simp [Bag.add, ha, hmem]
    · have hmem : a ∉ b.present := fun hmem => ha (contains_eq_true.mpr hmem)
      simp [Bag.add, ha, hmem]
  | remove a | contains a =>
    show Answer.flag (b.contains a) = _
    simp [Bag.contains]
  | drain =>
    refine ⟨b.drain.1, rfl, nodup_pendingOf h.nodup, ?_⟩
    ext x
    rw [List.mem_toFinset, List.mem_toFinset, mem_drain h]
  | clear => rfl
  | take =>
    cases ht : b.take.1 with
    | none =>
      refine .inl ⟨?_, congrArg Answer.item ht⟩
      rw [take_eq_none h ht, List.toFinset_nil]
    | some a =>
      refine .inr ⟨a, ?_, congrArg Answer.item ht⟩
      exact List.mem_toFinset.mpr (mem_present_of_take (Prod.ext ht rfl))

/-- **A call makes of a bag what it makes of the set of its items.** -/
theorem toFinset_present_call (h : b.Sound) (c : Call α) :
    (b.call c).2.present.toFinset =
      (⟨c, (b.call c).1⟩ : Exchange α).after b.present.toFinset := by
  ext x
  rw [List.mem_toFinset]
  cases c with
  | add a =>
    show x ∈ (b.add a).2.present ↔ x ∈ insert a b.present.toFinset
    rw [mem_present_add, Finset.mem_insert, List.mem_toFinset]
  | remove a =>
    show x ∈ (b.remove a).2.present ↔ x ∈ b.present.toFinset.erase a
    rw [mem_present_remove h, Finset.mem_erase, List.mem_toFinset]
  | contains a => exact List.mem_toFinset.symm
  | drain | clear => exact iff_of_false List.not_mem_nil (Finset.notMem_empty x)
  | take =>
    show x ∈ b.take.2.present ↔ x ∈ Exchange.after _ ⟨.take, .item b.take.1⟩
    cases ht : b.take.1 with
    | none =>
      show x ∈ b.take.2.present ↔ x ∈ b.present.toFinset
      rw [h.take_of_none ht, take_eq_none h ht, List.toFinset_nil]
      exact iff_of_false List.not_mem_nil (Finset.notMem_empty x)
    | some a =>
      show x ∈ b.take.2.present ↔ x ∈ b.present.toFinset.erase a
      rw [(take_eq_some h (Prod.ext ht rfl)).2.1, Finset.mem_erase, List.mem_toFinset]

/-- Taking until nothing comes hands out everything in order. -/
theorem answers_take (h : b.Sound) :
    b.answers (List.replicate (b.handOut.length + 1) .take) =
      b.handOut.map (fun a => .item (some a)) ++ [.item none] := by
  induction hn : b.handOut generalizing b with
  | nil =>
    have hnone : b.present = [] := by
      rw [List.eq_nil_iff_forall_not_mem]
      intro x hx
      have hmem := (mem_handOut h).mpr hx
      rw [hn] at hmem
      exact List.not_mem_nil hmem
    show [Answer.item b.take.1] = [.item none]
    rw [take_fst_of_nil hnone]
  | cons a rest ih =>
    have ha : a ∈ b.present := (mem_handOut h).mp (hn ▸ List.mem_cons_self)
    cases ht : b.take.1 with
    | none =>
      rw [take_eq_none h ht] at ha
      exact absurd ha List.not_mem_nil
    | some a' =>
      have htake : b.take = (some a', b.take.2) := Prod.ext ht rfl
      obtain ⟨rfl, hrest⟩ := List.cons.inj ((handOut_take htake).symm.trans hn)
      have hmore := ih (take_eq_some h htake).2.2 hrest
      show Answer.item b.take.1 :: b.take.2.answers (List.replicate (rest.length + 1) .take) = _
      rw [ht, hmore]
      rfl

end OneCall

/-! ## 4. All calls -/

namespace Past

variable {order : BagOrder} {log : List (Exchange α)} {b : Bag α}

theorem sound (h : Past order log b) : b.Sound := by
  induction h with
  | new => exact sound_empty order
  | call c _ ih => exact sound_call ih c

theorem held_eq (h : Past order log b) : held log = b.present.toFinset := by
  induction h with
  | new => rfl
  | call c h ih => rw [held, ih, toFinset_present_call h.sound]

theorem mem_held (h : Past order log b) {a : α} : a ∈ held log ↔ a ∈ b.present := by
  rw [h.held_eq, List.mem_toFinset]

/-- **A bag answers like a set**, in whichever order it hands out its items. Whatever was called on
a new bag, the next call is answered as the set of items answers it that the calls so far have made:
`add` and `remove` tell whether the item was absent or present, what is handed out is present and
nothing is handed out only if nothing is there, and draining lists each item once. The size and the
tests for emptiness are those of the set, and taking until nothing comes yields each of its items
once. -/
theorem answers_like_set (h : Past order log b) :
    (∀ c, (⟨c, (b.call c).1⟩ : Exchange α).Fits (held log)) ∧
    (∀ a, b.contains a = true ↔ a ∈ held log) ∧ b.size = (held log).card ∧
    (b.isEmpty = true ↔ held log = ∅) ∧ (b.hasWork = true ↔ held log ≠ ∅) ∧
    ∃ items : List α, items.Nodup ∧ items.toFinset = held log ∧
      b.answers (List.replicate (items.length + 1) .take) =
        items.map (fun a => .item (some a)) ++ [.item none] := by
  have hempty : b.isEmpty = true ↔ held log = ∅ := by
    rw [h.held_eq, List.toFinset_eq_empty_iff]
    exact List.isEmpty_iff
  refine ⟨fun c => ?_, fun a => ?_, ?_, hempty, ?_, b.handOut, ?_, ?_, answers_take h.sound⟩
  · rw [h.held_eq]
    exact fits_call h.sound c
  · rw [h.mem_held, contains_eq_true]
  · rw [h.held_eq, List.toFinset_card_of_nodup h.sound.nodup]
    rfl
  · rw [Ne, ← hempty, hasWork, Bool.not_eq_true', Bool.not_eq_true]
  · exact nodup_pendingOf h.sound.nodup
  · ext x
    rw [List.mem_toFinset, mem_handOut h.sound, h.mem_held]

end Past

/-- Two items are added, and the first of them is removed and added again. -/
def returningCalls : List (Call Nat) := [.add 1, .add 2, .remove 1, .add 1]

/-- The queue holds the first item twice, the bag holds it once. -/
theorem answers_like_set_returning :
    ∃ log b, Past .fifo log b ∧ b.entries = [1, 2, 1] ∧ held log = {1, 2} ∧ b.size = 2 ∧
      (⟨.remove 1, (b.call (.remove 1)).1⟩ : Exchange Nat).Fits {1, 2} ∧
      ∃ items : List Nat, items.Nodup ∧ items.toFinset = {1, 2} ∧
        b.answers (List.replicate (items.length + 1) .take) =
          items.map (fun a => .item (some a)) ++ [.item none] := by
  have hpast := past_history .fifo returningCalls
  have hheld : held (history .fifo returningCalls).1 = {1, 2} := by decide
  obtain ⟨hfits, -, hsize, -, -, hitems⟩ := hpast.answers_like_set
  rw [hheld] at hfits hsize hitems
  exact ⟨_, _, hpast, by decide, hheld, hsize, hfits (.remove 1), hitems⟩

end ValueFlow.Bag
