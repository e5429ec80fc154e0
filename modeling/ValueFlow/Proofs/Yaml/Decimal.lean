import ValueFlow.Proofs.Yaml.Lines

/-!
# Numbers in decimal

Decimal digits as they are written are read as the number they were written for: no leading zero, no
mark of another base and no sign is seen in them (`unsigned?_toDigits`). From there the two kinds of
numbers that are asked for, `natural?_toString` and `integer?_toString`.
-/

namespace ValueFlow.Yaml

variable {c : Char} {ds : List Char} {n : Nat}

/-! ## 1. Digits -/

theorem isWordChar_of_isDigit (hc : c.isDigit) : isWordChar c := by
  delta isWordChar Char.isAlphanum
  simp [hc]

theorem digit?_of_isDigit (hc : c.isDigit) : digit? 10 c = some (c.toNat - '0'.toNat) := by
  delta Char.isDigit at hc
  simp only [Bool.and_eq_true, decide_eq_true_eq, ge_iff_le, UInt32.le_iff_toNat_le] at hc
  change 48 ≤ c.toNat ∧ c.toNat ≤ 57 at hc
  have hlt : c.toNat - 48 < 10 := by omega
  simp [digit?, hc.1, hc.2, hlt]

theorem number?_of_isDigit (hne : ds ≠ []) (hds : ∀ c ∈ ds, c.isDigit) :
    number? 10 ds = some (Nat.ofDigitChars 10 ds 0) := by
  have hfold : ∀ (ds : List Char) (n : Nat), (∀ c ∈ ds, c.isDigit) →
      ds.foldl (fun n c => do return (← n) * 10 + (← digit? 10 c)) (some n) =
        some (Nat.ofDigitChars 10 ds n) := by
    intro ds
    induction ds with
    | nil => exact fun n _ => rfl
    | cons c ds ih =>
      intro n hds
      have hstep : (do return (← some n) * 10 + (← digit? 10 c) : Option Nat) =
          some (10 * n + (c.toNat - '0'.toNat)) := by
        rw [digit?_of_isDigit (hds c List.mem_cons_self), Nat.mul_comm 10 n]
        rfl
      rw [List.foldl_cons, hstep]
      exact ih _ fun d hd => hds d (List.mem_cons_of_mem _ hd)
  cases ds with
  | nil => exact absurd rfl hne
  | cons c ds => exact hfold (c :: ds) 0 hds

theorem isDigit_toDigits : ∀ c ∈ Nat.toDigits 10 n, c.isDigit := fun _ hc =>
  Nat.isDigit_of_mem_toDigits (by decide) (by decide) hc

theorem number?_toDigits : number? 10 (Nat.toDigits 10 n) = some n := by
  rw [number?_of_isDigit Nat.toDigits_ne_nil isDigit_toDigits,
    Nat.ofDigitChars_toDigits (by decide) (by decide)]

/-- Only zero starts with a zero. -/
theorem head?_toDigits (h : (Nat.toDigits 10 n).head? = some '0') : n = 0 := by
  induction n using Nat.strongRecOn with
  | _ n ih =>
    rw [Nat.toDigits_eq_if (by decide)] at h
    split at h
    · exact Nat.digitChar_eq_zero.mp (Option.some.inj h)
    · rename_i hn
      have hsome : (Nat.toDigits 10 (n / 10)).head?.isSome := by simp [Nat.toDigits_ne_nil]
      rw [List.head?_append, Option.or_of_isSome hsome] at h
      have := ih (n / 10) (by omega) h
      omega

theorem toDigits_ne_zero_cons : Nat.toDigits 10 n ≠ '0' :: c :: ds := by
  intro h
  have hn : n = 0 := head?_toDigits (by rw [h]; rfl)
  rw [hn] at h
  cases h

/-- Digits as they are written begin with a digit, and with a zero only if that is all. -/
theorem exists_toDigits (n : Nat) : ∃ c cs, Nat.toDigits 10 n = c :: cs ∧ c.isDigit ∧
    (c = '0' → cs = []) := by
  cases h : Nat.toDigits 10 n with
  | nil => exact absurd h Nat.toDigits_ne_nil
  | cons c cs =>
    refine ⟨c, cs, rfl, isDigit_toDigits c (by rw [h]; exact List.mem_cons_self), ?_⟩
    rintro rfl
    cases cs with
    | nil => rfl
    | cons d cs => exact absurd h toDigits_ne_zero_cons

/-- The digits of an integer, with the sign it has. -/
theorem toList_toString_int (x : Int) : (toString x).toList =
    if 0 ≤ x then Nat.toDigits 10 x.toNat else '-' :: Nat.toDigits 10 (-x).toNat := by
  rw [Int.toString_eq_repr, Int.repr_eq_if]
  split
  · exact Nat.toList_repr
  · rw [String.toList_append, Nat.toList_repr]
    rfl

theorem isWord_toDigits (n : Nat) : IsWord (Nat.toDigits 10 n) :=
  isWord_of_all Nat.toDigits_ne_nil
    (List.all_eq_true.mpr fun c hc => isWordChar_of_isDigit (isDigit_toDigits c hc))

theorem isWord_toString_int (x : Int) : IsWord (toString x).toList := by
  rw [toList_toString_int]
  split
  · exact isWord_toDigits _
  · obtain ⟨c, cs, h, -⟩ := exists_toDigits (-x).toNat
    rw [h]
    exact .minus fun d hd => isWordChar_of_isDigit (isDigit_toDigits d (h ▸ hd))

/-! ## 2. Scalars -/

namespace Scalar

/-- What begins with a digit or a sign does not stand for nothing. -/
theorem isNull_eq_false {t : String} {c : Char} {cs : List Char} (h : t.toList = c :: cs)
    (hc : c.isDigit ∨ c = '-') : isNull ⟨t, true⟩ = false := by
  have hne : ∀ u : String, (u.toList.head?.any fun c => c.isDigit || c == '-') = false → t ≠ u := by
    rintro u hu rfl
    simp [h] at hu
    rcases hc with hc | hc
    · rw [hc] at hu
      cases hu.1
    · exact hu.2 hc
  simp only [isNull, Bool.true_and, Bool.or_eq_false_iff, beq_eq_false_iff_ne]
  exact ⟨⟨⟨⟨hne _ (by decide +kernel), hne _ (by decide +kernel)⟩, hne _ (by decide +kernel)⟩,
    hne _ (by decide +kernel)⟩, hne _ (by decide +kernel)⟩

theorem isNull_toString_int (x : Int) : isNull ⟨toString x, true⟩ = false := by
  have htext := toList_toString_int x
  split at htext
  · obtain ⟨c, cs, h, hc, -⟩ := exists_toDigits x.toNat
    exact isNull_eq_false (htext.trans h) (.inl hc)
  · exact isNull_eq_false htext (.inr rfl)

theorem basedNumber?_toDigits : basedNumber? (Nat.toDigits 10 n) = none := by
  unfold basedNumber?
  split
  · rename_i h
    exact absurd h toDigits_ne_zero_cons
  · rename_i h
    exact absurd h toDigits_ne_zero_cons
  · rename_i h
    exact absurd h toDigits_ne_zero_cons
  · rfl

theorem ne_sign (hc : c.isDigit) : c ≠ '+' ∧ c ≠ '-' :=
  ⟨ne_of_isWordChar (isWordChar_of_isDigit hc) (by decide),
    ne_of_isWordChar (isWordChar_of_isDigit hc) (by decide)⟩

theorem hasLeadingZero_toDigits : hasLeadingZero (Nat.toDigits 10 n) = false ∧
    hasLeadingZero ('-' :: Nat.toDigits 10 n) = false := by
  obtain ⟨c, cs, h, hc, hzero⟩ := exists_toDigits n
  obtain ⟨hplus, hminus⟩ := ne_sign hc
  rw [h]
  by_cases h0 : c = '0'
  · rw [hzero h0, h0]
    decide
  · constructor <;> simp [hasLeadingZero, hplus, hminus, h0]

theorem unsigned?_toDigits : unsigned? (Nat.toDigits 10 n) = some n := by
  have hbased := basedNumber?_toDigits (n := n)
  have hlead := (hasLeadingZero_toDigits (n := n)).1
  have hnumber := number?_toDigits (n := n)
  obtain ⟨c, cs, h, hc, -⟩ := exists_toDigits n
  obtain ⟨hplus, hminus⟩ := ne_sign hc
  rw [h] at hbased hlead hnumber ⊢
  simp [unsigned?, startsWithSign, hplus, hminus, hbased, hlead, hnumber]

/-- **A natural number is read as it is written.** -/
theorem natural?_toString (n : Nat) : natural? ⟨toString n, true⟩ = some n := by
  unfold natural?
  rw [if_pos rfl, Nat.toString_eq_repr, Nat.toList_repr]
  exact unsigned?_toDigits

/-- **An integer is read as it is written.** -/
theorem integer?_toString (x : Int) : integer? ⟨toString x, true⟩ = some x := by
  unfold integer?
  rw [if_pos rfl, toList_toString_int]
  by_cases hx : 0 ≤ x
  · have hunsigned := unsigned?_toDigits (n := x.toNat)
    obtain ⟨c, cs, h, hc, -⟩ := exists_toDigits x.toNat
    rw [if_pos hx]
    rw [h] at hunsigned ⊢
    unfold signed?
    split
    · rename_i e
      exact absurd (List.cons.inj e).1 (ne_sign hc).2
    · rw [hunsigned]
      exact congrArg some (Int.toNat_of_nonneg hx)
  · rw [if_neg hx]
    unfold signed?
    split
    · rename_i rest e
      rw [← (List.cons.inj e).2, basedNumber?_toDigits, hasLeadingZero_toDigits.2,
        number?_toDigits]
      refine congrArg some ?_
      show -((-x).toNat : Int) = x
      omega
    · rename_i hne
      exact absurd rfl (hne _)

end Scalar

end ValueFlow.Yaml
