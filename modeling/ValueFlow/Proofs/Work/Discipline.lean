import Mathlib.Data.List.Basic
import ValueFlow.Proofs.Work.Contents

/-!
# In which order a bag hands out its items

An entry of the queue can outlive its item: removing leaves it there, and if the item is added again
there are two. So the order of the items is read off the history of the bag, where each entry has
the number of the call that made it.

Of an item that is present, the youngest entry is the one that its last addition made
(`Stamped.latest`). So the youngest first is the one that was added last (`Past.takes_latest`). From
the other end an old entry of the item may come up before (`readded_before_older`): what is handed
out there is the item with the oldest entry, and the same goes for draining (`Past.takes_oldest`).
It is the item that was added first if none was removed and added again.

* `lastAdded`, `entriesLeft`, `waitingSince`: what the history tells of the entries;
* `Change`, `change_call`: what a call does to the queue;
* `Past.stamped`, `Past.single`: what holds after any calls.
-/

namespace ValueFlow

/-- A queue from the end that is handed out first, if it is given from its oldest entry on, and the
other way round. -/
def BagOrder.turn {β : Type} (order : BagOrder) (queue : List β) : List β :=
  match order with
  | .lifo => queue.reverse
  | .fifo => queue

namespace BagOrder

variable {β γ : Type} {order : BagOrder} {xs ys : List β}

@[simp] theorem turn_turn : order.turn (order.turn xs) = xs := by
  cases order with
  | lifo => exact List.reverse_reverse xs
  | fifo => rfl

@[simp] theorem mem_turn {x : β} : x ∈ order.turn xs ↔ x ∈ xs := by
  cases order with
  | lifo => exact List.mem_reverse
  | fifo => exact Iff.rfl

theorem map_turn (f : β → γ) : (order.turn xs).map f = order.turn (xs.map f) := by
  cases order with
  | lifo => exact List.map_reverse
  | fifo => rfl

theorem turn_sublist (h : xs.Sublist ys) : (order.turn xs).Sublist (order.turn ys) := by
  cases order with
  | lifo => exact List.reverse_sublist.mpr h
  | fifo => exact h

end BagOrder

namespace Bag

variable {α : Type} [DecidableEq α]

/-! ## 1. What the history tells -/

/-- The number of the last call that added the item; zero if none did. -/
def lastAdded (a : α) : List (Exchange α) → Nat
  | [] => 0
  | ⟨.add x, .flag true⟩ :: earlier => if x = a then earlier.length + 1 else lastAdded a earlier
  | _ :: earlier => lastAdded a earlier

/-- **The entries that are left in the queue**, oldest first, each with the number of the call that
made it. An item that is handed out takes its entry away, and all that came up before. -/
def entriesLeft (order : BagOrder) : List (Exchange α) → List (α × Nat)
  | [] => []
  | ⟨.add a, .flag true⟩ :: earlier => entriesLeft order earlier ++ [(a, earlier.length + 1)]
  | ⟨.take, .item (some a)⟩ :: earlier =>
    order.turn ((order.turn (entriesLeft order earlier)).dropWhile fun e => e.1 ≠ a).tail
  | ⟨.take, .item none⟩ :: _ => []
  | ⟨.drain, _⟩ :: _ => []
  | ⟨.clear, _⟩ :: _ => []
  | _ :: earlier => entriesLeft order earlier

/-- The number of an item's oldest entry. -/
def oldestOf (a : α) : List (α × Nat) → Nat
  | [] => 0
  | e :: entries => if e.1 = a then e.2 else oldestOf a entries

/-- The number of the call since which there has been an entry of the item. -/
def waitingSince (order : BagOrder) (a : α) (log : List (Exchange α)) : Nat :=
  oldestOf a (entriesLeft order log)

/-- The calls since the bag was last drained or cleared. -/
def sinceEmptied : List (Exchange α) → List (Exchange α)
  | [] => []
  | ⟨.drain, _⟩ :: _ => []
  | ⟨.clear, _⟩ :: _ => []
  | e :: earlier => e :: sinceEmptied earlier

/-- The item was removed and later added again, since the bag was last drained or cleared. -/
def Restored (a : α) (log : List (Exchange α)) : Prop :=
  List.Sublist [⟨.add a, .flag true⟩, ⟨.remove a, .flag true⟩] (sinceEmptied log)

instance (a : α) (log : List (Exchange α)) : Decidable (Restored a log) :=
  inferInstanceAs (Decidable (List.Sublist _ _))

theorem lastAdded_le (a : α) (log : List (Exchange α)) : lastAdded a log ≤ log.length := by
  fun_induction lastAdded a log with
  | case1 => exact Nat.le_refl 0
  | case2 => exact Nat.le_refl _
  | case3 _ _ _ ih => exact Nat.le_succ_of_le ih
  | case4 _ _ _ ih => exact Nat.le_succ_of_le ih

theorem entriesLeft_emptied (order : BagOrder) (log : List (Exchange α)) {e : Exchange α}
    (he : e.call = .drain ∨ e.call = .clear ∨ e = ⟨.take, .item none⟩) :
    entriesLeft order (e :: log) = [] := by
  obtain ⟨c, answer⟩ := e
  rcases he with rfl | rfl | heq
  · rfl
  · rfl
  · rw [heq, entriesLeft]

theorem mem_oldestOf {a : α} {t : Nat} {entries : List (α × Nat)} (h : (a, t) ∈ entries) :
    (a, oldestOf a entries) ∈ entries := by
  induction entries with
  | nil => cases h
  | cons e entries ih =>
    unfold oldestOf
    by_cases he : e.1 = a
    · rw [if_pos he, ← he]
      exact List.mem_cons_self
    · rw [if_neg he]
      have hne : (a, t) ≠ e := fun heq => he (heq ▸ rfl)
      exact List.mem_cons_of_mem _ (ih ((List.mem_cons.mp h).resolve_left hne))

theorem oldestOf_append {a : α} {t : Nat} {before after : List (α × Nat)}
    (h : ∀ e ∈ before, e.1 ≠ a) : oldestOf a (before ++ (a, t) :: after) = t := by
  induction before with
  | nil => exact if_pos rfl
  | cons e before ih =>
    obtain ⟨he, hrest⟩ := List.forall_mem_cons.mp h
    exact (if_neg he).trans (ih hrest)

/-! ## 2. What a call does -/

/-- **What a call does to the queue and to the items that are present.** -/
inductive Change (b : Bag α) : Exchange α → Bag α → Prop where
  | known (a : α) : Change b ⟨.add a, .flag false⟩ b
  | added {b' : Bag α} (a : α) (habsent : a ∉ b.present) (horder : b'.order = b.order)
      (hentries : b'.entries = b.entries ++ [a]) (hpresent : b'.present = a :: b.present) :
      Change b ⟨.add a, .flag true⟩ b'
  | missing (a : α) : Change b ⟨.remove a, .flag false⟩ b
  | removed {b' : Bag α} (a : α) (horder : b'.order = b.order) (hentries : b'.entries = b.entries)
      (hpresent : b'.present = b.present.erase a) : Change b ⟨.remove a, .flag true⟩ b'
  | asked (a : α) : Change b ⟨.contains a, .flag (b.contains a)⟩ b
  /-- what comes up before the item is not present -/
  | taken {b' : Bag α} (a : α) {before : List α} (hqueue : b.queue = before ++ a :: b'.queue)
      (hbefore : ∀ x ∈ before, x ∉ b.present) (hmem : a ∈ b.present) (horder : b'.order = b.order)
      (hpresent : b'.present = b.present.erase a) : Change b ⟨.take, .item (some a)⟩ b'
  | emptied {e : Exchange α} {b' : Bag α}
      (he : e.call = .drain ∨ e.call = .clear ∨ e = ⟨.take, .item none⟩)
      (horder : b'.order = b.order) (hentries : b'.entries = []) (hpresent : b'.present = []) :
      Change b e b'

omit [DecidableEq α] in
theorem queue_eq_turn (b : Bag α) : b.queue = b.order.turn b.entries := by
  unfold queue BagOrder.turn
  cases b.order <;> rfl

theorem take_snd_order (b : Bag α) : b.take.2.order = b.order := by
  unfold take
  split <;> split <;> rfl

theorem take_snd_entries {b : Bag α} (ht : b.take.1 = none) : b.take.2.entries = [] := by
  unfold take at ht ⊢
  split <;> split <;> simp_all

theorem change_take {b : Bag α} (h : b.Sound) :
    Change b ⟨.take, .item b.take.1⟩ b.take.2 := by
  cases ht : b.take.1 with
  | none =>
    exact .emptied (.inr (.inr rfl)) b.take_snd_order (take_snd_entries ht) (h.take_of_none ht)
  | some a =>
    have htake : b.take = (some a, b.take.2) := Prod.ext ht rfl
    obtain ⟨rest, hdrop⟩ := exists_dropWhile_of_take htake
    obtain ⟨hpresent, hrest⟩ := take_snd hdrop
    have hqueue : b.queue = b.queue.takeWhile (fun a => !b.contains a) ++ a :: b.take.2.queue := by
      rw [hrest, ← hdrop, List.takeWhile_append_dropWhile]
    refine .taken a hqueue (fun x hx => ?_) (mem_present_of_take htake) b.take_snd_order hpresent
    have hskipped := List.mem_takeWhile_imp hx
    rwa [Bool.not_eq_true', ← Bool.not_eq_true, contains_eq_true] at hskipped

/-- **Every call is one of these changes.** -/
theorem change_call {b : Bag α} (h : b.Sound) (c : Call α) :
    Change b ⟨c, (b.call c).1⟩ (b.call c).2 := by
  cases c with
  | add a =>
    by_cases ha : b.contains a = true
    · have hadd : b.add a = (false, b) := if_pos ha
      rw [call, hadd]
      exact .known a
    · have hadd : b.add a = (true, _) := if_neg ha
      rw [call, hadd]
      refine .added a (fun hmem => ha (contains_eq_true.mpr hmem)) rfl ?_ rfl
      simp
  | remove a =>
    by_cases ha : b.contains a = true
    · have hremove : b.remove a = (true, _) := Prod.ext ha rfl
      rw [call, hremove]
      refine .removed a rfl ?_ rfl
      rw [entries_eq, entries_eq]
      rfl
    · have hmem : a ∉ b.present := fun hmem => ha (contains_eq_true.mpr hmem)
      have hremove : b.remove a = (false, b) := by
        unfold Bag.remove
        rw [List.erase_of_not_mem hmem, Bool.eq_false_iff.mpr ha]
      rw [call, hremove]
      exact .missing a
  | contains a => exact .asked a
  | drain => exact .emptied (.inl rfl) rfl rfl rfl
  | clear => exact .emptied (.inr (.inl rfl)) rfl rfl rfl
  | take => exact change_take h

/-! ## 3. The entries after any calls -/

/-- **The entries are told by the history**, and the last addition of an item that is present has
its entry among them. -/
structure Stamped (order : BagOrder) (log : List (Exchange α)) (b : Bag α) : Prop where
  sameOrder : b.order = order
  entries : (entriesLeft order log).map Prod.fst = b.entries
  increasing : (entriesLeft order log).Pairwise fun e e' => e.2 < e'.2
  bounded : ∀ e ∈ entriesLeft order log, e.2 ≤ lastAdded e.1 log
  latest : ∀ a ∈ b.present, (a, lastAdded a log) ∈ entriesLeft order log

namespace Stamped

variable {order : BagOrder} {log : List (Exchange α)} {b b' : Bag α} {a x : α}

/-- The entry that hands out an item, between those that came up before and those that are left. -/
theorem split (h : Stamped order log b) {before : List α}
    (hqueue : b.queue = before ++ a :: b'.queue) (hbefore : ∀ x ∈ before, x ∉ b.present)
    (hmem : a ∈ b.present) :
    ∃ passed t left, order.turn (entriesLeft order log) = passed ++ (a, t) :: left ∧
      (∀ e ∈ passed, e.1 ∉ b.present) ∧ left.map Prod.fst = b'.queue ∧
      entriesLeft order (⟨.take, .item (some a)⟩ :: log) = order.turn left := by
  have hmap : (order.turn (entriesLeft order log)).map Prod.fst = before ++ a :: b'.queue := by
    rw [BagOrder.map_turn, h.entries, ← hqueue, queue_eq_turn, h.sameOrder]
  obtain ⟨passed, rest, hsplit, rfl, hrest⟩ := List.map_eq_append_iff.mp hmap
  obtain ⟨⟨_, t⟩, left, rfl, rfl, hleft⟩ := List.map_eq_cons_iff.mp hrest
  have hpassed : ∀ e ∈ passed, e.1 ∉ b.present := fun e he =>
    hbefore e.1 (List.mem_map_of_mem he)
  refine ⟨passed, t, left, hsplit, hpassed, hleft, ?_⟩
  rw [entriesLeft, hsplit, List.dropWhile_append_of_pos, List.dropWhile_cons_of_neg]
  · rfl
  · simp
  · intro e he
    exact decide_eq_true fun heq => hpassed e he (heq ▸ hmem)

theorem distinct (h : Stamped order log b) :
    (order.turn (entriesLeft order log)).Pairwise fun e e' => e.2 ≠ e'.2 := by
  cases order with
  | lifo => exact List.pairwise_reverse.mpr (h.increasing.imp fun hlt => Nat.ne_of_gt hlt)
  | fifo => exact h.increasing.imp fun hlt => Nat.ne_of_lt hlt

/-- Entries of other items that are present come up later. -/
theorem mem_left {passed left : List (α × Nat)} {t t' : Nat}
    (hsplit : order.turn (entriesLeft order log) = passed ++ (a, t) :: left)
    (hpassed : ∀ e ∈ passed, e.1 ∉ b.present) (hx : x ∈ b.present) (hne : x ≠ a)
    (hentry : (x, t') ∈ entriesLeft order log) : (x, t') ∈ left := by
  have hmem : (x, t') ∈ passed ++ (a, t) :: left := by
    rw [← hsplit, BagOrder.mem_turn]
    exact hentry
  rcases List.mem_append.mp hmem with hmem | hmem
  · exact absurd hx (hpassed _ hmem)
  · exact (List.mem_cons.mp hmem).resolve_left fun heq => hne (congrArg Prod.fst heq)

theorem add (h : Stamped order log b) (horder : b'.order = b.order)
    (hentries : b'.entries = b.entries ++ [a]) (hpresent : b'.present = a :: b.present)
    (habsent : a ∉ b.present) : Stamped order (⟨.add a, .flag true⟩ :: log) b' where
  sameOrder := horder.trans h.sameOrder
  entries := by
    rw [entriesLeft, List.map_append, h.entries, hentries]
    rfl
  increasing := by
    refine List.pairwise_append.mpr ⟨h.increasing, List.pairwise_singleton _ _, ?_⟩
    rintro e he _ hnew
    cases List.mem_singleton.mp hnew
    have hle := h.bounded e he
    have hlength := lastAdded_le e.1 log
    show e.2 < log.length + 1
    omega
  bounded e he := by
    unfold lastAdded
    rcases List.mem_append.mp he with he | he
    · have hle := h.bounded e he
      have hlength := lastAdded_le e.1 log
      split <;> omega
    · cases List.mem_singleton.mp he
      rw [if_pos rfl]
  latest x hx := by
    unfold lastAdded
    rcases List.mem_cons.mp (hpresent ▸ hx) with rfl | hx
    · rw [if_pos rfl]
      exact List.mem_concat_self
    · have hne : a ≠ x := fun heq => habsent (heq ▸ hx)
      rw [if_neg hne]
      exact List.mem_append_left _ (h.latest x hx)

theorem take (h : Stamped order log b) (hsound : b.Sound) {before : List α}
    (hqueue : b.queue = before ++ a :: b'.queue) (hbefore : ∀ x ∈ before, x ∉ b.present)
    (hmem : a ∈ b.present) (horder : b'.order = b.order)
    (hpresent : b'.present = b.present.erase a) :
    Stamped order (⟨.take, .item (some a)⟩ :: log) b' := by
  obtain ⟨passed, t, left, hsplit, hpassed, hleft, hentries⟩ := h.split hqueue hbefore hmem
  have hsub : (order.turn left).Sublist (entriesLeft order log) := by
    have hsuffix : left.Sublist (order.turn (entriesLeft order log)) := by
      rw [hsplit]
      exact (List.sublist_cons_self _ _).trans (List.sublist_append_right _ _)
    have hturned : (order.turn left).Sublist (order.turn (order.turn (entriesLeft order log))) :=
      BagOrder.turn_sublist hsuffix
    rwa [BagOrder.turn_turn] at hturned
  refine ⟨horder.trans h.sameOrder, ?_, ?_, fun e he => ?_, fun x hx => ?_⟩
  · rw [hentries, BagOrder.map_turn, hleft, queue_eq_turn, horder, h.sameOrder, BagOrder.turn_turn]
  · rw [hentries]
    exact h.increasing.sublist hsub
  · rw [hentries] at he
    exact h.bounded e (hsub.subset he)
  · rw [hpresent, hsound.nodup.mem_erase_iff] at hx
    rw [hentries, BagOrder.mem_turn]
    exact mem_left hsplit hpassed hx.2 hx.1 (h.latest x hx.2)

theorem change (h : Stamped order log b) (hsound : b.Sound) {e : Exchange α}
    (hchange : Change b e b') : Stamped order (e :: log) b' := by
  cases hchange with
  | known a | missing a | asked a =>
    exact ⟨h.sameOrder, h.entries, h.increasing, h.bounded, h.latest⟩
  | added a habsent horder hentries hpresent => exact h.add horder hentries hpresent habsent
  | removed a horder hentries hpresent =>
    exact ⟨horder.trans h.sameOrder, h.entries.trans hentries.symm, h.increasing, h.bounded,
      fun x hx => h.latest x (List.mem_of_mem_erase (hpresent ▸ hx))⟩
  | taken a hqueue hbefore hmem horder hpresent =>
    exact h.take hsound hqueue hbefore hmem horder hpresent
  | emptied he horder hentries hpresent =>
    have hnone := entriesLeft_emptied order log he
    refine ⟨horder.trans h.sameOrder, ?_, ?_, ?_, ?_⟩
    · rw [hnone, hentries, List.map_nil]
    · rw [hnone]
      exact List.Pairwise.nil
    · simp [hnone]
    · simp [hpresent]

end Stamped

namespace Past

variable {order : BagOrder} {log : List (Exchange α)} {b : Bag α}

theorem stamped (h : Past order log b) : Stamped order log b := by
  induction h with
  | new => exact ⟨rfl, rfl, List.Pairwise.nil, by simp [entriesLeft], by simp [empty]⟩
  | call c h ih => exact ih.change h.sound (change_call h.sound c)

/-- What is handed out, among the entries. -/
theorem take_split (h : Past order log b) {x : α} (ht : b.take.1 = some x) :
    x ∈ b.present ∧ ∃ passed t left,
      order.turn (entriesLeft order log) = passed ++ (x, t) :: left ∧
        ∀ e ∈ passed, e.1 ∉ b.present := by
  have hchange := change_take h.sound
  rw [ht] at hchange
  cases hchange with
  | taken _ hqueue hbefore hmem =>
    obtain ⟨passed, t, left, hsplit, hpassed, -⟩ := h.stamped.split hqueue hbefore hmem
    exact ⟨hmem, passed, t, left, hsplit, hpassed⟩
  | emptied he => simp at he

theorem take_eq_none_iff (h : Past order log b) : b.take.1 = none ↔ held log = ∅ := by
  rw [h.held_eq, List.toFinset_eq_empty_iff]
  exact ⟨take_eq_none h.sound, take_fst_of_nil⟩

/-! ## 4. The youngest first -/

/-- **The youngest first.** Whatever was called on a new bag that hands out the youngest first, it
hands out, of the items that are present, the one that was added last, also if items were removed
and added again in between. It hands out nothing only if nothing is present. -/
theorem takes_latest (h : Past .lifo log b) :
    (b.take.1 = none ↔ held log = ∅) ∧
    ∀ x, b.take.1 = some x → x ∈ held log ∧
      ∀ y ∈ held log, y ≠ x → lastAdded y log < lastAdded x log := by
  refine ⟨h.take_eq_none_iff, fun x ht => ?_⟩
  obtain ⟨hx, passed, t, left, hsplit, hpassed⟩ := h.take_split ht
  refine ⟨h.mem_held.mpr hx, fun y hy hne => ?_⟩
  have hy := h.mem_held.mp hy
  have hleft := Stamped.mem_left hsplit hpassed hy hne (h.stamped.latest y hy)
  have hdecreasing := List.pairwise_reverse.mpr h.stamped.increasing
  have hturned : (passed ++ (x, t) :: left).Pairwise fun e e' => e'.2 < e.2 :=
    hsplit ▸ hdecreasing
  have hlt : lastAdded y log < t :=
    (List.pairwise_cons.mp (List.pairwise_append.mp hturned).2.1).1 _ hleft
  have hmem : (x, t) ∈ entriesLeft .lifo log := by
    rw [← BagOrder.mem_turn, hsplit]
    simp
  exact Nat.lt_of_lt_of_le hlt (h.stamped.bounded _ hmem)

end Past

/-- The first item is removed and added again twice, the second time after it was handed out. -/
def restlessCalls : List (Call Nat) :=
  [.add 1, .add 2, .remove 1, .add 1, .take, .add 3, .add 1, .remove 3]

theorem takes_latest_restless :
    ∃ log b, Past .lifo log b ∧ b.entries = [1, 2, 3, 1] ∧ held log = {1, 2} ∧
      b.take.1 = some 1 ∧ lastAdded 2 log < lastAdded 1 log := by
  have hpast := past_history .lifo restlessCalls
  have htake : (history .lifo restlessCalls).2.take.1 = some 1 := by decide
  have hheld : held (history .lifo restlessCalls).1 = {1, 2} := by decide
  refine ⟨_, _, hpast, by decide, hheld, htake, (hpast.takes_latest.2 1 htake).2 2 ?_ (by decide)⟩
  rw [hheld]
  decide

/-! ## 5. The oldest first -/

/-- Draining lists the items by their oldest entries. -/
theorem pairwise_pendingOf {entries : List (α × Nat)}
    (hincreasing : entries.Pairwise fun e e' => e.2 < e'.2) {present : List α}
    (hnodup : present.Nodup) :
    (pendingOf present (entries.map Prod.fst)).Pairwise
      fun x y => oldestOf x entries < oldestOf y entries := by
  induction entries generalizing present with
  | nil => exact List.Pairwise.nil
  | cons e entries ih =>
    obtain ⟨hfirst, hincreasing⟩ := List.pairwise_cons.mp hincreasing
    have hskip : ∀ {x}, x ≠ e.1 → oldestOf x (e :: entries) = oldestOf x entries :=
      fun hne => if_neg hne.symm
    -- the other items have their oldest entries in the rest
    have hrest : ∀ {present : List α}, present.Nodup → e.1 ∉ present →
        (pendingOf present (entries.map Prod.fst)).Pairwise
          fun x y => oldestOf x (e :: entries) < oldestOf y (e :: entries) := by
      intro present hnodup habsent
      refine (ih hincreasing hnodup).imp_of_mem fun {x y} hx hy hlt => ?_
      have hne : ∀ {z}, z ∈ pendingOf present (entries.map Prod.fst) → z ≠ e.1 :=
        fun hz heq => habsent (heq ▸ mem_of_mem_pendingOf hz)
      rwa [hskip (hne hx), hskip (hne hy)]
    rw [List.map_cons, pendingOf]
    split
    · refine List.pairwise_cons.mpr ⟨fun y hy => ?_, hrest (hnodup.erase _) hnodup.not_mem_erase⟩
      obtain ⟨hpresent, hentry⟩ := (mem_pendingOf (hnodup.erase _)).mp hy
      have hne : y ≠ e.1 := fun heq => hnodup.not_mem_erase (heq ▸ hpresent)
      obtain ⟨⟨_, t⟩, hmem, rfl⟩ := List.mem_map.mp hentry
      have hself : oldestOf e.1 (e :: entries) = e.2 := if_pos rfl
      rw [hself, hskip hne]
      exact hfirst _ (mem_oldestOf hmem)
    · rename_i habsent
      exact hrest hnodup fun hmem => habsent (List.contains_iff_mem.mpr hmem)

/-! ### Items with one entry -/

section Single

variable {order : BagOrder} {log : List (Exchange α)} {b b' : Bag α} {a : α} {e : Exchange α}

omit [DecidableEq α] in
theorem not_restored_of_cons (h : ¬ Restored a (e :: log))
    (hsince : sinceEmptied (e :: log) = e :: sinceEmptied log) : ¬ Restored a log := by
  intro hrestored
  refine h ?_
  unfold Restored at hrestored ⊢
  rw [hsince]
  exact hrestored.cons _

/-- **The item has one entry at most**: that of its last addition while it is present, and one that
its removal has left otherwise. -/
structure Single (order : BagOrder) (log : List (Exchange α)) (b : Bag α) (a : α) : Prop where
  present : a ∈ b.present → ∀ t, (a, t) ∈ entriesLeft order log → t = lastAdded a log
  absent : a ∉ b.present → ∀ t, (a, t) ∈ entriesLeft order log →
    ⟨.remove a, .flag true⟩ ∈ sinceEmptied log

namespace Single

/-- Nothing changes for an item that gets no entry. -/
theorem mono (h : Single order log b a)
    (hsince : sinceEmptied (e :: log) = e :: sinceEmptied log)
    (hentries : ∀ t, (a, t) ∈ entriesLeft order (e :: log) → (a, t) ∈ entriesLeft order log)
    (hlast : lastAdded a (e :: log) = lastAdded a log)
    (hpresent : a ∈ b'.present ↔ a ∈ b.present) : Single order (e :: log) b' a where
  present ha t ht := (h.present (hpresent.mp ha) t (hentries t ht)).trans hlast.symm
  absent ha t ht := by
    rw [hsince]
    exact List.mem_cons_of_mem _
      (h.absent (fun hmem => ha (hpresent.mpr hmem)) t (hentries t ht))

theorem add {x : α} (h : Single order log b a) (hnot : ¬ Restored a (⟨.add x, .flag true⟩ :: log))
    (habsent : x ∉ b.present) (hpresent : b'.present = x :: b.present) :
    Single order (⟨.add x, .flag true⟩ :: log) b' a := by
  by_cases hx : x = a
  · subst hx
    refine ⟨fun _ t ht => ?_, fun ha => absurd (hpresent ▸ List.mem_cons_self) ha⟩
    rw [lastAdded, if_pos rfl]
    rcases List.mem_append.mp ht with ht | ht
    · -- an entry that is left over tells that the item was removed
      refine absurd ?_ hnot
      exact (List.singleton_sublist.mpr (h.absent habsent t ht)).cons_cons _
    · exact congrArg Prod.snd (List.mem_singleton.mp ht)
  · refine h.mono rfl (fun t ht => ?_) (if_neg hx) ?_
    · refine (List.mem_append.mp ht).resolve_right fun hnew => hx ?_
      exact (congrArg Prod.fst (List.mem_singleton.mp hnew)).symm
    · rw [hpresent, List.mem_cons]
      exact ⟨fun hmem => hmem.resolve_left (Ne.symm hx), .inr⟩

theorem take {x : α} (h : Single order log b a) (hstamped : Stamped order log b)
    (hsound : b.Sound) {before : List α} (hqueue : b.queue = before ++ x :: b'.queue)
    (hbefore : ∀ y ∈ before, y ∉ b.present) (hmem : x ∈ b.present)
    (hpresent : b'.present = b.present.erase x) :
    Single order (⟨.take, .item (some x)⟩ :: log) b' a := by
  obtain ⟨passed, t, left, hsplit, -, -, hentries⟩ := hstamped.split hqueue hbefore hmem
  have hsub : ∀ e ∈ (x, t) :: left, e ∈ entriesLeft order log := by
    intro e he
    rw [← BagOrder.mem_turn, hsplit]
    exact List.mem_append_right _ he
  have hleft : ∀ t', (a, t') ∈ entriesLeft order (⟨.take, .item (some x)⟩ :: log) →
      (a, t') ∈ left := by
    intro t' ht'
    rwa [hentries, BagOrder.mem_turn] at ht'
  by_cases hx : x = a
  · subst hx
    refine ⟨fun ha => ?_, fun _ t' ht' => ?_⟩
    · rw [hpresent] at ha
      exact absurd ha hsound.nodup.not_mem_erase
    · -- both entries would be that of the last addition
      have hlater := hleft t' ht'
      have hsame : t = t' := (h.present hmem t (hsub _ List.mem_cons_self)).trans
        (h.present hmem t' (hsub _ (List.mem_cons_of_mem _ hlater))).symm
      have hdistinct := hstamped.distinct
      rw [hsplit] at hdistinct
      exact absurd hsame
        ((List.pairwise_cons.mp (List.pairwise_append.mp hdistinct).2.1).1 _ hlater)
  · refine h.mono rfl (fun t' ht' => hsub _ (List.mem_cons_of_mem _ (hleft t' ht'))) rfl ?_
    rw [hpresent]
    exact List.mem_erase_of_ne (Ne.symm hx)

theorem change (h : ¬ Restored a log → Single order log b a) (hstamped : Stamped order log b)
    (hsound : b.Sound) (hchange : Change b e b') (hnot : ¬ Restored a (e :: log)) :
    Single order (e :: log) b' a := by
  cases hchange with
  | known x | missing x | asked x =>
    exact (h (not_restored_of_cons hnot rfl)).mono rfl (fun _ ht => ht) rfl Iff.rfl
  | added x habsent _ _ hpresent =>
    exact (h (not_restored_of_cons hnot rfl)).add hnot habsent hpresent
  | removed x _ _ hpresent =>
    have hsingle := h (not_restored_of_cons hnot rfl)
    by_cases hx : x = a
    · subst hx
      refine ⟨fun ha => ?_, fun _ _ _ => List.mem_cons_self⟩
      rw [hpresent] at ha
      exact absurd ha hsound.nodup.not_mem_erase
    · refine hsingle.mono rfl (fun _ ht => ht) rfl ?_
      rw [hpresent]
      exact List.mem_erase_of_ne (Ne.symm hx)
  | taken x hqueue hbefore hmem _ hpresent =>
    exact (h (not_restored_of_cons hnot rfl)).take hstamped hsound hqueue hbefore hmem
      hpresent
  | emptied he _ _ hpresent =>
    have hnone := entriesLeft_emptied order log he
    refine ⟨fun ha => ?_, fun _ t ht => ?_⟩
    · rw [hpresent] at ha
      exact absurd ha List.not_mem_nil
    · rw [hnone] at ht
      exact absurd ht List.not_mem_nil

end Single

end Single

namespace Past

variable {order : BagOrder} {log : List (Exchange α)} {b : Bag α}

/-- An item that was not removed and added again has one entry at most. -/
theorem single (h : Past order log b) {a : α} : ¬ Restored a log → Single order log b a := by
  induction h with
  | new => exact fun _ => ⟨fun _ _ ht => absurd ht List.not_mem_nil,
      fun _ _ ht => absurd ht List.not_mem_nil⟩
  | call c h ih => exact Single.change ih h.stamped h.sound (change_call h.sound c)

theorem waitingSince_eq (h : Past order log b) {a : α} (ha : a ∈ b.present)
    (hnot : ¬ Restored a log) : waitingSince order a log = lastAdded a log :=
  (h.single hnot).present ha _ (mem_oldestOf (h.stamped.latest a ha))

theorem take_oldest (h : Past .fifo log b) {x y : α} (ht : b.take.1 = some x) (hy : y ∈ b.present)
    (hne : y ≠ x) : waitingSince .fifo x log < waitingSince .fifo y log := by
  obtain ⟨hx, passed, t, left, hsplit, hpassed⟩ := h.take_split ht
  have hentries : entriesLeft .fifo log = passed ++ (x, t) :: left := hsplit
  have hself : waitingSince .fifo x log = t := by
    unfold waitingSince
    rw [hentries]
    exact oldestOf_append fun e he heq => hpassed e he (heq ▸ hx)
  have hleft := Stamped.mem_left hsplit hpassed hy hne (mem_oldestOf (h.stamped.latest y hy))
  have hincreasing := h.stamped.increasing
  rw [hentries] at hincreasing
  rw [hself]
  exact (List.pairwise_cons.mp (List.pairwise_append.mp hincreasing).2.1).1 _ hleft

theorem drain_pairwise (h : Past order log b) :
    b.drain.1.Pairwise fun x y => waitingSince order x log < waitingSince order y log := by
  have hpending := pairwise_pendingOf h.stamped.increasing h.sound.nodup
  rwa [h.stamped.entries] at hpending

/-- **The oldest first.** Whatever was called on a new bag that hands out the oldest first, it hands
out, of the items that are present, the one with the oldest entry in the queue, and any bag is
drained in the order of the oldest entries. If no item that is present was removed and added again
since the bag was last drained or cleared, this is the order in which the items were last added. -/
theorem takes_oldest (h : Past order log b) :
    (b.take.1 = none ↔ held log = ∅) ∧
    (order = .fifo → ∀ x, b.take.1 = some x → x ∈ held log ∧
      ∀ y ∈ held log, y ≠ x → waitingSince order x log < waitingSince order y log) ∧
    (∀ x, x ∈ b.drain.1 ↔ x ∈ held log) ∧
    (b.drain.1.Pairwise fun x y => waitingSince order x log < waitingSince order y log) ∧
    ((∀ a ∈ held log, ¬ Restored a log) →
      (order = .fifo → ∀ x, b.take.1 = some x →
        ∀ y ∈ held log, y ≠ x → lastAdded x log < lastAdded y log) ∧
      b.drain.1.Pairwise fun x y => lastAdded x log < lastAdded y log) := by
  have hdrain : ∀ x, x ∈ b.drain.1 ↔ x ∈ held log := fun x => by
    rw [mem_drain h.sound, h.mem_held]
  refine ⟨h.take_eq_none_iff, ?_, hdrain, h.drain_pairwise, fun hnot => ⟨?_, ?_⟩⟩
  · rintro rfl x ht
    exact ⟨h.mem_held.mpr (h.take_split ht).1, fun y hy hne =>
      h.take_oldest ht (h.mem_held.mp hy) hne⟩
  · rintro rfl x ht y hy hne
    have hx := (h.take_split ht).1
    rw [← h.waitingSince_eq hx (hnot x (h.mem_held.mpr hx)),
      ← h.waitingSince_eq (h.mem_held.mp hy) (hnot y hy)]
    exact h.take_oldest ht (h.mem_held.mp hy) hne
  · refine h.drain_pairwise.imp_of_mem fun {x y} hx hy hlt => ?_
    rw [hdrain] at hx hy
    rwa [← h.waitingSince_eq (h.mem_held.mp hx) (hnot x hx),
      ← h.waitingSince_eq (h.mem_held.mp hy) (hnot y hy)]

end Past

/-- An item is removed and added again before the bag is drained, and another one is removed after
that. -/
def settledCalls : List (Call Nat) :=
  [.add 1, .remove 1, .add 1, .drain, .add 2, .add 1, .add 3, .remove 2]

theorem takes_oldest_settled :
    ∃ log b, Past .fifo log b ∧ b.entries = [2, 1, 3] ∧ held log = {1, 3} ∧
      (∀ a ∈ held log, ¬ Restored a log) ∧ b.take.1 = some 1 ∧
      lastAdded 1 log < lastAdded 3 log ∧
      b.drain.1.Pairwise fun x y => lastAdded x log < lastAdded y log := by
  have hpast := past_history .fifo settledCalls
  have htake : (history .fifo settledCalls).2.take.1 = some 1 := by decide
  have hheld : held (history .fifo settledCalls).1 = {1, 3} := by decide
  have hnot : ∀ a ∈ held (history .fifo settledCalls).1,
      ¬ Restored a (history .fifo settledCalls).1 := by decide
  obtain ⟨-, -, -, -, horder⟩ := hpast.takes_oldest
  obtain ⟨hfirst, hdrain⟩ := horder hnot
  exact ⟨_, _, hpast, by decide, hheld, hnot, htake,
    hfirst rfl 1 htake 3 (by rw [hheld]; decide) (by decide), hdrain⟩

/-- **An item that was added again goes before older ones**: the entry that its removal left behind
comes up first, although the other item was added before. -/
theorem readded_before_older :
    ∃ log b, Past .fifo log b ∧ 2 ∈ held log ∧ lastAdded 2 log < lastAdded 1 log ∧
      b.take.1 = some 1 ∧ b.drain.1 = [1, 2] :=
  ⟨_, _, past_history .fifo returningCalls, by decide, by decide, by decide, by decide⟩

end Bag

end ValueFlow
