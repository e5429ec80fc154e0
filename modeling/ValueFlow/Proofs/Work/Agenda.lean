import ValueFlow.Proofs.Work.Bag
import ValueFlow.Work.Agenda

/-!
# What waits on an agenda

An agenda is read in two ways: which tokens wait for an item (`Agenda.Waits`), and whether every
item that tokens wait for is going to be executed (`Agenda.Kept`). An item may be queued for the
next round or be in a bag that is being worked off; the latter is told by a predicate on items.
-/

namespace ValueFlow.Agenda

variable {τ : Type} [Ordered τ]

/-- The token `t` waits for `item`. -/
def Waits (a : Agenda τ) (item : WorkItem) (t : τ) : Prop :=
  ∃ delta, a.delta? item = some delta ∧ t ∈ delta

/-- **No waiting tokens are forgotten**: an item with tokens is queued for the next round or is in
hand, and there is at least one token. -/
structure Kept (a : Agenda τ) (inHand : WorkItem → Prop) : Prop where
  sound : a.next.Sound
  queued : ∀ {item delta}, a.delta? item = some delta → item ∈ a.next.present ∨ inHand item
  nonempty : ∀ {item delta}, a.delta? item = some delta → delta.isEmpty = false

theorem Kept.mono {a : Agenda τ} {p q : WorkItem → Prop} (h : a.Kept p)
    (hpq : ∀ item, p item → q item) : a.Kept q :=
  ⟨h.sound, fun hd => (h.queued hd).imp id (hpq _), h.nonempty⟩

theorem waits_empty (order : BagOrder) (item : WorkItem) (t : τ) :
    ¬ (empty order : Agenda τ).Waits item t := by
  rintro ⟨delta, h, _⟩
  cases h

theorem kept_empty (order : BagOrder) (inHand : WorkItem → Prop) :
    (empty order : Agenda τ).Kept inHand :=
  ⟨Bag.sound_empty order, nofun, nofun⟩

theorem Kept.exists_waits {a : Agenda τ} {inHand : WorkItem → Prop} {item : WorkItem}
    {delta : TokenSet τ} (h : a.Kept inHand) (hd : a.delta? item = some delta) :
    ∃ t, a.Waits item t := by
  have hne := h.nonempty hd
  rw [← Bool.not_eq_true, SortedSet.isEmpty_eq_true] at hne
  obtain ⟨t, ht⟩ := Classical.not_forall.mp hne
  exact ⟨t, delta, hd, Classical.not_not.mp ht⟩

/-- Where no token waits, nothing is recorded. -/
theorem Kept.delta?_eq_none {a : Agenda τ} {inHand : WorkItem → Prop} {item : WorkItem}
    (h : a.Kept inHand) (hw : ∀ t, ¬ a.Waits item t) : a.delta? item = none := by
  cases hd : a.delta? item with
  | none => rfl
  | some delta =>
    obtain ⟨t, ht⟩ := h.exists_waits hd
    exact absurd ht (hw t)

/-- With nothing queued and nothing in hand, nothing waits. -/
theorem Kept.not_waits {a : Agenda τ} (h : a.Kept fun _ => False) (hw : a.hasWork = false)
    (item : WorkItem) (t : τ) : ¬ a.Waits item t := by
  rintro ⟨delta, hd, _⟩
  rcases h.queued hd with hq | hf
  · rw [Bag.hasWork_eq_false.mp hw] at hq
    exact List.not_mem_nil hq
  · exact hf

/-! ## 1. Posting -/

theorem delta?_post_of_ne {a : Agenda τ} {item item' : WorkItem} (tokens : TokenSet τ)
    (hne : item ≠ item') : (a.post item tokens).2.delta? item' = a.delta? item' := by
  unfold post
  split
  · rfl
  · split <;> exact (Table.get?_set _ _ _ _).trans (if_neg hne)

theorem delta?_post_self {a : Agenda τ} {item : WorkItem} {tokens : TokenSet τ}
    (hne : tokens.isEmpty = false) :
    (a.post item tokens).2.delta? item =
      some (match a.delta? item with | some waiting => waiting ∪ tokens | none => tokens) := by
  unfold post
  rw [hne]
  cases a.delta? item with
  | none => exact (Table.get?_set _ _ _ _).trans (if_pos rfl)
  | some waiting => exact (Table.get?_set _ _ _ _).trans (if_pos rfl)

theorem exists_delta?_post {a : Agenda τ} {item : WorkItem} {tokens : TokenSet τ}
    (hne : tokens.isEmpty = false) :
    ∃ delta, (a.post item tokens).2.delta? item = some delta ∧ ∀ t ∈ tokens, t ∈ delta := by
  refine ⟨_, delta?_post_self hne, fun t ht => ?_⟩
  cases a.delta? item with
  | none => exact ht
  | some waiting => exact SortedSet.mem_union.mpr (.inr ht)

theorem post_of_isEmpty {a : Agenda τ} {item : WorkItem} {tokens : TokenSet τ}
    (h : tokens.isEmpty = true) : (a.post item tokens).2 = a := by
  unfold post
  rw [if_pos h]

/-- **Posting adds the tokens to what waits for the item**, and does nothing else. -/
theorem waits_post {a : Agenda τ} {item item' : WorkItem} {tokens : TokenSet τ} {t : τ} :
    (a.post item tokens).2.Waits item' t ↔ a.Waits item' t ∨ (item' = item ∧ t ∈ tokens) := by
  by_cases he : tokens.isEmpty = true
  · rw [post_of_isEmpty he]
    have := SortedSet.isEmpty_eq_true.mp he t
    exact ⟨.inl, fun h => h.elim id fun h => absurd h.2 this⟩
  · have he : tokens.isEmpty = false := by simpa using he
    unfold Waits
    by_cases hne : item = item'
    · subst hne
      rw [delta?_post_self he]
      cases a.delta? item with
      | none => simp
      | some waiting => simp
    · rw [delta?_post_of_ne tokens hne]
      exact ⟨.inl, fun h => h.elim id fun h => absurd h.1.symm hne⟩

theorem delta?_post_eq_none {a : Agenda τ} {item x : WorkItem} {tokens : TokenSet τ} :
    (a.post item tokens).2.delta? x = none ↔
      a.delta? x = none ∧ (item = x → tokens.isEmpty = true) := by
  by_cases he : tokens.isEmpty = true
  · rw [post_of_isEmpty he]
    exact ⟨fun h => ⟨h, fun _ => he⟩, fun h => h.1⟩
  · by_cases hx : item = x
    · subst hx
      rw [delta?_post_self (Bool.eq_false_iff.mpr he)]
      exact ⟨nofun, fun h => absurd (h.2 rfl) he⟩
    · rw [delta?_post_of_ne tokens hx]
      exact ⟨fun h => ⟨h, fun e => absurd e hx⟩, fun h => h.1⟩

/-- An item is queued by tokens that come for it when none wait. -/
theorem mem_next_post_iff {a : Agenda τ} {item x : WorkItem} {tokens : TokenSet τ} :
    x ∈ (a.post item tokens).2.next.present ↔ x ∈ a.next.present ∨
      (x = item ∧ a.delta? item = none ∧ tokens.isEmpty = false) := by
  by_cases he : tokens.isEmpty = true
  · rw [post_of_isEmpty he]
    simp [he]
  · unfold post
    rw [if_neg he]
    cases hd : a.delta? item with
    | some waiting => simp
    | none => simp [Bag.mem_present_add, he, or_comm]

theorem mem_next_post {a : Agenda τ} {item x : WorkItem} {tokens : TokenSet τ}
    (h : x ∈ a.next.present) : x ∈ (a.post item tokens).2.next.present :=
  mem_next_post_iff.mpr (.inl h)

theorem sound_post {a : Agenda τ} (h : a.next.Sound) (item : WorkItem) (tokens : TokenSet τ) :
    (a.post item tokens).2.next.Sound := by
  unfold post
  split
  · exact h
  · split
    · exact h
    · exact h.add item

theorem Kept.post {a : Agenda τ} {inHand : WorkItem → Prop} (h : a.Kept inHand)
    (item : WorkItem) (tokens : TokenSet τ) : (a.post item tokens).2.Kept inHand := by
  by_cases he : tokens.isEmpty = true
  · rw [post_of_isEmpty he]; exact h
  have he : tokens.isEmpty = false := by simpa using he
  refine ⟨sound_post h.sound item tokens, fun {item' delta} hd => ?_, fun {item' delta} hd => ?_⟩
  · by_cases hne : item = item'
    · subst hne
      cases hw : a.delta? item with
      | some waiting => exact (h.queued hw).imp mem_next_post id
      | none =>
        left
        unfold Agenda.post
        rw [he, hw]
        exact Bag.mem_present_add.mpr (.inl rfl)
    · rw [delta?_post_of_ne tokens hne] at hd
      exact (h.queued hd).imp mem_next_post id
  · by_cases hne : item = item'
    · subst hne
      obtain ⟨delta', hdelta', hsub⟩ : ∃ delta', (a.post item tokens).2.delta? item = some delta' ∧
        ∀ t ∈ tokens, t ∈ delta' := exists_delta?_post he
      rw [hd] at hdelta'
      cases hdelta'
      rw [← Bool.not_eq_true, SortedSet.isEmpty_eq_true] at he ⊢
      exact fun hall => he fun t ht => hall t (hsub t ht)
    · rw [delta?_post_of_ne tokens hne] at hd
      exact h.nonempty hd

/-! ## 2. Taking tokens out -/

theorem delta?_collect {a : Agenda τ} {item item' : WorkItem} :
    (a.collect item).2.delta? item' = if item = item' then none else a.delta? item' :=
  Table.get?_erase _ _ _

/-- Where nothing waits there is nothing to take out. -/
theorem collect_of_delta? {a : Agenda τ} {item : WorkItem} (h : a.delta? item = none) :
    (a.collect item).2 = a := by
  have hrows : ∀ rows : List (WorkItem × TokenSet τ), Table.getRow item rows = none →
      rows.filter (fun row => row.1 ≠ item) = rows := by
    intro rows
    induction rows with
    | nil => exact fun _ => rfl
    | cons row rows ih =>
      intro hnone
      unfold Table.getRow at hnone
      split at hnone
      · cases hnone
      · rename_i hne
        rw [List.filter_cons_of_pos (by simpa using hne), ih hnone]
  have hdeltas : a.deltas.erase item = a.deltas := congrArg Table.mk (hrows _ h)
  unfold collect
  rw [hdeltas]

theorem waits_collect {a : Agenda τ} {item item' : WorkItem} {t : τ} :
    (a.collect item).2.Waits item' t ↔ item' ≠ item ∧ a.Waits item' t := by
  unfold Waits
  rw [delta?_collect]
  by_cases h : item = item'
  · subst h; simp
  · simp [h, Ne.symm h]

/-- An item whose tokens were taken out need not be in hand any more. -/
theorem Kept.collect {a : Agenda τ} {p q : WorkItem → Prop} {item : WorkItem} (h : a.Kept p)
    (hpq : ∀ x, x ≠ item → p x → q x) : (a.collect item).2.Kept q := by
  refine ⟨h.sound, fun {item' delta} hd => ?_, fun {item' delta} hd => ?_⟩
  · rw [delta?_collect] at hd
    split at hd
    · cases hd
    · rename_i hne
      exact (h.queued hd).imp id (hpq _ (Ne.symm hne))
  · rw [delta?_collect] at hd
    split at hd
    · cases hd
    · exact h.nonempty hd

theorem delta?_withdraw {a : Agenda τ} {item item' : WorkItem} :
    (a.withdraw item).2.delta? item' = if item = item' then none else a.delta? item' := by
  unfold withdraw
  split
  · rename_i hn
    by_cases h : item = item'
    · rw [if_pos h, ← h]; exact hn
    · rw [if_neg h]
  · exact Table.get?_erase _ _ _

theorem withdraw_fst (a : Agenda τ) (item : WorkItem) :
    (a.withdraw item).1 = a.delta? item := by
  unfold withdraw
  split <;> rename_i h <;> exact h.symm

theorem waits_withdraw {a : Agenda τ} {item item' : WorkItem} {t : τ} :
    (a.withdraw item).2.Waits item' t ↔ item' ≠ item ∧ a.Waits item' t := by
  unfold Waits
  rw [delta?_withdraw]
  by_cases h : item = item'
  · subst h; simp
  · simp [h, Ne.symm h]

theorem Kept.withdraw {a : Agenda τ} {inHand : WorkItem → Prop} (h : a.Kept inHand)
    (item : WorkItem) : (a.withdraw item).2.Kept inHand := by
  refine ⟨?_, fun {item' delta} hd => ?_, fun {item' delta} hd => ?_⟩
  · unfold Agenda.withdraw
    split
    · exact h.sound
    · exact h.sound.remove item
  · rw [delta?_withdraw] at hd
    split at hd
    · cases hd
    · rename_i hne
      refine (h.queued hd).imp (fun hq => ?_) id
      unfold Agenda.withdraw
      split
      · exact hq
      · exact (Bag.mem_present_remove h.sound).mpr ⟨Ne.symm hne, hq⟩
  · rw [delta?_withdraw] at hd
    split at hd
    · cases hd
    · exact h.nonempty hd

/-! ## 3. Rounds -/

theorem Kept.schedule {a : Agenda τ} {inHand : WorkItem → Prop} (h : a.Kept inHand)
    (item : WorkItem) : (a.schedule item).2.Kept inHand :=
  ⟨h.sound.add item, fun hd => (h.queued hd).imp (fun hq => Bag.mem_present_add.mpr (.inr hq)) id,
    h.nonempty⟩

theorem startRound_eq_none {a : Agenda τ} : a.startRound = none ↔ a.next.present = [] := by
  unfold Agenda.startRound Bag.isEmpty
  rw [← List.isEmpty_iff]
  split <;> simp_all

theorem startRound_eq_some {a a' : Agenda τ} {bag : Bag WorkItem}
    (h : a.startRound = some (bag, a')) :
    bag = a.next ∧ a' = { a with next := .empty a.next.order } := by
  unfold Agenda.startRound at h
  split at h
  · cases h
  · cases h
    exact ⟨rfl, rfl⟩

theorem waits_startRound {a a' : Agenda τ} {bag : Bag WorkItem} {item : WorkItem} {t : τ}
    (hs : a.startRound = some (bag, a')) : a'.Waits item t ↔ a.Waits item t := by
  obtain ⟨-, rfl⟩ := startRound_eq_some hs
  exact Iff.rfl

/-- The bag that is handed out takes over what was queued. -/
theorem Kept.startRound {a a' : Agenda τ} {bag : Bag WorkItem} {inHand : WorkItem → Prop}
    (h : a.Kept inHand) (hs : a.startRound = some (bag, a')) :
    bag.Sound ∧ a'.Kept fun item => item ∈ bag.present ∨ inHand item := by
  obtain ⟨rfl, rfl⟩ := startRound_eq_some hs
  exact ⟨h.sound, Bag.sound_empty _, fun hd => .inr (h.queued hd), h.nonempty⟩

theorem mem_next_putBack {a : Agenda τ} {bag : Bag WorkItem} {item : WorkItem} (hb : bag.Sound) :
    item ∈ (a.putBack bag).next.present ↔ item ∈ bag.present ∨ item ∈ a.next.present := by
  rw [← Bag.mem_drain hb]
  exact Bag.mem_present_foldl_add

theorem Kept.putBack {a : Agenda τ} {bag : Bag WorkItem} {inHand : WorkItem → Prop}
    (hb : bag.Sound) (h : a.Kept fun item => item ∈ bag.present ∨ inHand item) :
    (a.putBack bag).Kept inHand := by
  refine ⟨h.sound.foldl_add _, fun hd => ?_, h.nonempty⟩
  rw [mem_next_putBack hb]
  rcases h.queued hd with hq | hq | hq
  · exact .inl (.inr hq)
  · exact .inl (.inl hq)
  · exact .inr hq

/-! ## 4. What lasts -/

theorem order_post (a : Agenda τ) (item : WorkItem) (tokens : TokenSet τ) :
    (a.post item tokens).2.next.order = a.next.order := by
  unfold post
  split
  · rfl
  · split
    · rfl
    · exact Bag.order_add a.next item

/-- **A property that outlives posts** of tokens for items that can carry them. -/
structure Growing (P : Agenda τ → Prop) : Prop where
  post : ∀ {a : Agenda τ} {item : WorkItem} (tokens : TokenSet τ), item.carriesTokens → P a →
    P (a.post item tokens).2

/-- **A property that lasts**: it stays also when what waits for a node is withdrawn. -/
structure Lasting (P : Agenda τ → Prop) : Prop extends Growing P where
  withdraw : ∀ {a : Agenda τ} (r : NodeId), P a → P (a.withdraw (.send r)).2

theorem lasting_kept (inHand : WorkItem → Prop) : Lasting fun a : Agenda τ => a.Kept inHand :=
  ⟨⟨fun tokens _ h => h.post _ tokens⟩, fun r h => h.withdraw (.send r)⟩

/-- A task stays queued whatever becomes of the tokens. -/
theorem lasting_task (id : TaskId) :
    Lasting fun a : Agenda τ => .task id ∈ a.next.present := by
  refine ⟨⟨fun tokens _ h => mem_next_post h⟩, fun {a} r h => ?_⟩
  have hne : WorkItem.task id ≠ .send r := nofun
  unfold Agenda.withdraw
  split
  · exact h
  · exact (List.mem_erase_of_ne hne).mpr h

/-- The order in which items are handed out is never changed. -/
theorem lasting_order (order : BagOrder) :
    Lasting fun a : Agenda τ => a.next.order = order := by
  refine ⟨⟨fun {a item} tokens _ h => (a.order_post item tokens).trans h⟩, fun {a} r h => ?_⟩
  unfold Agenda.withdraw
  split <;> exact h

end ValueFlow.Agenda
