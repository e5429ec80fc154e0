import Mathlib.Data.List.TakeWhile
import ValueFlow.Work.Bag

/-!
# What a bag holds

A bag is read through its list of present items. The queue only decides the order in which they
are handed out, as long as every present item has an entry there (`Bag.Sound`).

* `mem_present_add`, `mem_present_remove`: one item comes or goes;
* `take_eq_none`, `take_eq_some`: a bag hands out a present item as long as there is one;
* `mem_drain`: what is drained is what is present;
* `handOut_take`: the order in which the items are handed out.
-/

namespace ValueFlow.Bag

variable {α : Type} [DecidableEq α]

/-- **Every present item is listed once and has an entry in the queue.** -/
structure Sound (b : Bag α) : Prop where
  nodup : b.present.Nodup
  listed : ∀ a ∈ b.present, a ∈ b.entries

theorem contains_eq_true {b : Bag α} {a : α} : b.contains a = true ↔ a ∈ b.present :=
  List.contains_iff_mem

omit [DecidableEq α] in
theorem sound_empty (order : BagOrder) : (empty order : Bag α).Sound :=
  ⟨List.nodup_nil, fun _ h => absurd h List.not_mem_nil⟩

omit [DecidableEq α] in
theorem hasWork_eq_false {b : Bag α} : b.hasWork = false ↔ b.present = [] := by
  simp [hasWork, isEmpty]

/-! ## 1. Adding and removing -/

theorem mem_present_add {b : Bag α} {a x : α} :
    x ∈ (b.add a).2.present ↔ x = a ∨ x ∈ b.present := by
  unfold add
  split
  · rename_i h
    rw [contains_eq_true] at h
    exact ⟨.inr, fun hx => hx.elim (fun e => e ▸ h) id⟩
  · exact List.mem_cons

theorem order_add (b : Bag α) (a : α) : (b.add a).2.order = b.order := by
  unfold add
  split <;> rfl

theorem order_foldl_add (items : List α) (b : Bag α) :
    (items.foldl (fun b a => (b.add a).2) b).order = b.order := by
  induction items generalizing b with
  | nil => rfl
  | cons a items ih => exact (ih _).trans (order_add b a)

theorem Sound.add {b : Bag α} (h : b.Sound) (a : α) : (b.add a).2.Sound := by
  unfold Bag.add
  split
  · exact h
  · rename_i ha
    rw [contains_eq_true] at ha
    refine ⟨List.nodup_cons.mpr ⟨ha, h.nodup⟩, fun x hx => ?_⟩
    rw [entries_eq]
    rcases List.mem_cons.mp hx with rfl | hx
    · simp
    · have := h.listed x hx
      simp only [entries_eq, List.mem_append] at this
      simp only [List.reverse_cons, List.mem_append]
      exact this.imp id .inl

theorem mem_present_remove {b : Bag α} (h : b.Sound) {a x : α} :
    x ∈ (b.remove a).2.present ↔ x ≠ a ∧ x ∈ b.present :=
  h.nodup.mem_erase_iff

theorem Sound.remove {b : Bag α} (h : b.Sound) (a : α) : (b.remove a).2.Sound :=
  ⟨h.nodup.erase a, fun x hx => h.listed x (List.mem_of_mem_erase hx)⟩

/-! ## 2. Handing out -/

/-- The queue from the end that is handed out first. -/
def queue (b : Bag α) : List α :=
  match b.order with
  | .lifo => b.entries.reverse
  | .fifo => b.entries

omit [DecidableEq α] in
theorem mem_queue {b : Bag α} {a : α} : a ∈ b.queue ↔ a ∈ b.entries := by
  unfold queue
  split
  · exact List.mem_reverse
  · exact Iff.rfl

omit [DecidableEq α] in
/-- What is dropped from the front fails the test at which the rest begins. -/
theorem mem_of_dropWhile_eq_cons {p : α → Bool} {xs rest : List α} {a x : α}
    (h : xs.dropWhile p = a :: rest) (hx : x ∈ xs) (hp : p x = false) : x = a ∨ x ∈ rest := by
  induction xs with
  | nil => simp at h
  | cons y ys ih =>
    by_cases hy : p y = true
    · rw [List.dropWhile_cons_of_pos hy] at h
      rcases List.mem_cons.mp hx with rfl | hx
      · rw [hp] at hy; cases hy
      · exact ih h hx
    · rw [List.dropWhile_cons_of_neg hy] at h
      obtain ⟨rfl, rfl⟩ := List.cons.inj h
      exact List.mem_cons.mp hx

/-- What is handed out is the first item of the queue that is present. -/
theorem take_fst {b : Bag α} :
    b.take.1 = (b.queue.dropWhile fun a => !b.contains a).head? := by
  unfold take queue
  cases b.order with
  | lifo =>
    dsimp only
    rw [entriesRev_eq]
    cases b.entries.reverse.dropWhile fun a => !b.contains a <;> rfl
  | fifo =>
    dsimp only
    cases b.entries.dropWhile fun a => !b.contains a <;> rfl

theorem take_snd {b : Bag α} {a : α} {rest : List α}
    (hd : b.queue.dropWhile (fun a => !b.contains a) = a :: rest) :
    b.take.2.present = b.present.erase a ∧ b.take.2.queue = rest := by
  unfold queue at hd
  unfold take
  cases ho : b.order with
  | lifo =>
    rw [ho] at hd
    dsimp only at hd ⊢
    rw [entriesRev_eq, hd]
    simp [queue]
  | fifo =>
    rw [ho] at hd
    dsimp only at hd ⊢
    rw [hd]
    simp [queue]

/-- **Nothing is handed out only if nothing is present.** -/
theorem take_eq_none {b : Bag α} (h : b.Sound) (ht : b.take.1 = none) : b.present = [] := by
  have hq : b.queue.dropWhile (fun a => !b.contains a) = [] := by
    rw [take_fst, List.head?_eq_none_iff] at ht
    exact ht
  rw [List.eq_nil_iff_forall_not_mem]
  intro x hx
  have hxq := mem_queue.mpr (h.listed x hx)
  have := List.dropWhile_eq_nil_iff.mp hq x hxq
  rw [Bool.not_eq_true', ← Bool.not_eq_true, contains_eq_true] at this
  exact this hx

theorem take_fst_of_nil {b : Bag α} (h : b.present = []) : b.take.1 = none := by
  rw [take_fst, List.head?_eq_none_iff, List.dropWhile_eq_nil_iff]
  intro x _
  simp [contains, h]

theorem present_of_take_none {b b' : Bag α} (ht : b.take = (none, b')) :
    b'.present = b.present := by
  unfold take at ht
  split at ht <;> split at ht <;> cases ht <;> rfl

theorem exists_dropWhile_of_take {b b' : Bag α} {a : α} (ht : b.take = (some a, b')) :
    ∃ rest, b.queue.dropWhile (fun a => !b.contains a) = a :: rest := by
  have hfst := take_fst (b := b)
  rw [ht] at hfst
  exact List.head?_eq_some_iff.mp hfst.symm

/-- **What is handed out was present.** -/
theorem mem_present_of_take {b b' : Bag α} {a : α} (ht : b.take = (some a, b')) :
    a ∈ b.present := by
  obtain ⟨rest, hd⟩ := exists_dropWhile_of_take ht
  have := List.head?_dropWhile_not (fun a => !b.contains a) b.queue
  rw [hd] at this
  exact contains_eq_true.mp (by simpa using this)

theorem mem_of_mem_take {b b' : Bag α} {a x : α} (ht : b.take = (some a, b'))
    (hx : x ∈ b'.present) : x ∈ b.present := by
  obtain ⟨rest, hd⟩ := exists_dropWhile_of_take ht
  have hp := (take_snd hd).1
  rw [ht] at hp
  exact List.mem_of_mem_erase (hp ▸ hx)

/-- **What is handed out was present**, and it alone is gone. -/
theorem take_eq_some {b b' : Bag α} {a : α} (h : b.Sound) (ht : b.take = (some a, b')) :
    a ∈ b.present ∧ (∀ x, x ∈ b'.present ↔ x ≠ a ∧ x ∈ b.present) ∧ b'.Sound := by
  obtain ⟨rest, hd⟩ := exists_dropWhile_of_take ht
  obtain ⟨hp, hq⟩ := take_snd hd
  rw [ht] at hp hq
  have ha := mem_present_of_take ht
  have hm : ∀ x, x ∈ b'.present ↔ x ≠ a ∧ x ∈ b.present := fun x => by
    rw [hp]; exact h.nodup.mem_erase_iff
  refine ⟨ha, hm, hp ▸ h.nodup.erase a, fun x hx => ?_⟩
  obtain ⟨hne, hx⟩ := (hm x).mp hx
  have hc : (!b.contains x) = false := by rw [contains_eq_true.mpr hx]; rfl
  have := mem_of_dropWhile_eq_cons hd (mem_queue.mpr (h.listed x hx)) hc
  rw [← mem_queue, hq]
  exact this.resolve_left hne

theorem take_singleton (a : α) :
    ((empty .fifo : Bag α).add a).2.take = (some a, .empty .fifo) := by
  simp [take, add, empty, contains]

theorem length_take {b b' : Bag α} {a : α} (ht : b.take = (some a, b')) :
    b'.present.length + 1 = b.present.length := by
  obtain ⟨rest, hd⟩ := exists_dropWhile_of_take ht
  have hp := (take_snd hd).1
  rw [ht] at hp
  have ha := mem_present_of_take ht
  have hpos := List.length_pos_of_mem ha
  rw [hp, List.length_erase_of_mem ha]
  omega

/-! ## 3. Draining -/

theorem mem_pendingOf {present entries : List α} (h : present.Nodup) {x : α} :
    x ∈ pendingOf present entries ↔ x ∈ present ∧ x ∈ entries := by
  induction entries generalizing present with
  | nil => simp [pendingOf]
  | cons a rest ih =>
    unfold pendingOf
    by_cases ha : present.contains a = true
    · rw [if_pos ha, List.mem_cons, ih (h.erase a), h.mem_erase_iff, List.mem_cons]
      rw [List.contains_iff_mem] at ha
      by_cases hx : x = a
      · subst hx; simp [ha]
      · simp [hx]
    · rw [if_neg ha, ih h, List.mem_cons]
      rw [List.contains_iff_mem] at ha
      refine ⟨fun ⟨h₁, h₂⟩ => ⟨h₁, .inr h₂⟩, fun ⟨h₁, h₂⟩ => ⟨h₁, h₂.resolve_left ?_⟩⟩
      rintro rfl
      exact ha h₁

theorem mem_of_mem_pendingOf {present entries : List α} {x : α}
    (h : x ∈ pendingOf present entries) : x ∈ present := by
  induction entries generalizing present with
  | nil => cases h
  | cons a rest ih =>
    unfold pendingOf at h
    split at h
    · rename_i ha
      rcases List.mem_cons.mp h with rfl | h
      · exact List.contains_iff_mem.mp ha
      · exact List.mem_of_mem_erase (ih h)
    · exact ih h

theorem nodup_pendingOf {present entries : List α} (h : present.Nodup) :
    (pendingOf present entries).Nodup := by
  induction entries generalizing present with
  | nil => exact List.nodup_nil
  | cons a rest ih =>
    unfold pendingOf
    split
    · refine List.nodup_cons.mpr ⟨fun ha => ?_, ih (h.erase a)⟩
      exact h.not_mem_erase (mem_of_mem_pendingOf ha)
    · exact ih h

/-- The entries before the first one that counts do not matter. -/
theorem pendingOf_of_dropWhile {present entries rest : List α} {a : α}
    (h : entries.dropWhile (fun a => !present.contains a) = a :: rest) :
    pendingOf present entries = a :: pendingOf (present.erase a) rest := by
  induction entries with
  | nil => cases h
  | cons x entries ih =>
    by_cases hx : present.contains x = true
    · rw [List.dropWhile_cons_of_neg (by simpa using hx)] at h
      obtain ⟨rfl, rfl⟩ := List.cons.inj h
      exact if_pos hx
    · rw [List.dropWhile_cons_of_pos (by simpa using hx)] at h
      exact (if_neg hx).trans (ih h)

theorem mem_drain {b : Bag α} (h : b.Sound) {x : α} : x ∈ b.drain.1 ↔ x ∈ b.present := by
  unfold drain
  rw [mem_pendingOf h.nodup]
  exact ⟨And.left, fun hx => ⟨hx, h.listed x hx⟩⟩

/-- **The order in which the items are handed out**: each at its first place in the queue. -/
def handOut (b : Bag α) : List α := pendingOf b.present b.queue

theorem mem_handOut {b : Bag α} (h : b.Sound) {x : α} : x ∈ b.handOut ↔ x ∈ b.present := by
  unfold handOut
  rw [mem_pendingOf h.nodup]
  exact ⟨And.left, fun hx => ⟨hx, mem_queue.mpr (h.listed x hx)⟩⟩

theorem handOut_of_nil {b : Bag α} (h : b.present = []) : b.handOut = [] := by
  rw [List.eq_nil_iff_forall_not_mem]
  intro x hx
  have := mem_of_mem_pendingOf hx
  simp [h] at this

/-- What is handed out next is first in that order. -/
theorem handOut_take {b b' : Bag α} {a : α} (ht : b.take = (some a, b')) :
    b.handOut = a :: b'.handOut := by
  obtain ⟨rest, hd⟩ := exists_dropWhile_of_take ht
  obtain ⟨hp, hq⟩ := take_snd hd
  rw [ht] at hp hq
  unfold handOut
  rw [hp, hq]
  exact pendingOf_of_dropWhile hd

theorem mem_present_foldl_add {b : Bag α} {items : List α} {x : α} :
    x ∈ (items.foldl (fun b a => (b.add a).2) b).present ↔ x ∈ items ∨ x ∈ b.present := by
  induction items generalizing b with
  | nil => simp
  | cons a items ih =>
    rw [List.foldl_cons, ih, mem_present_add, List.mem_cons, or_left_comm, or_assoc]

theorem Sound.foldl_add {b : Bag α} (h : b.Sound) (items : List α) :
    (items.foldl (fun b a => (b.add a).2) b).Sound := by
  induction items generalizing b with
  | nil => exact h
  | cons a items ih => exact ih (h.add a)

end ValueFlow.Bag
