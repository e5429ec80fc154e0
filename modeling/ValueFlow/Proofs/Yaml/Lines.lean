import ValueFlow.Yaml.Blocks

/-!
# Cutting up block mappings

A text of lines `key: value` and `key:`, indented by blanks, with words for keys and values. Here is
which tokens it is cut into: `tokensOf_lines`. A line closes the mappings that are deeper than it
and opens one if none is at its column (`closes`, `opens`), and the columns of the mappings that are
open are all that the cutter has to remember from one line to the next (`Cutting.between`).

The lemmas go from small to large: what is passed over between tokens, what a plain scalar takes,
what a key and its colon leave, what a value leaves, one line after the other.
-/

namespace ValueFlow.Yaml

/-! ## 1. Words -/

/-- **A word**, which may have a minus sign in front. -/
inductive IsWord : List Char → Prop
  | letters {c : Char} {cs : List Char} : (∀ d ∈ c :: cs, isWordChar d) → IsWord (c :: cs)
  | minus {c : Char} {cs : List Char} : (∀ d ∈ c :: cs, isWordChar d) → IsWord ('-' :: c :: cs)

/-- The text does not begin with anything that is passed over between tokens. -/
def Solid (text : List Char) : Prop :=
  ∀ c ∈ text.head?, isBlank c = false ∧ isBreak c = false ∧ c ≠ '#' ∧ c ≠ byteOrderMark

variable {c d : Char} {w text rest : List Char} {cur : Cursor} {i j fuel indent : Nat}

theorem isWord_of_all (hne : w ≠ []) (h : w.all isWordChar) : IsWord w := by
  cases w with
  | nil => exact absurd rfl hne
  | cons c cs => exact .letters (List.all_eq_true.mp h)

theorem ne_of_isWordChar (hc : isWordChar c) (hd : isWordChar d = false) : c ≠ d := by
  rintro rfl
  rw [hc] at hd
  cases hd

theorem isBlank_of_isWordChar (hc : isWordChar c) : isBlank c = false := by
  simp only [isBlank, Bool.or_eq_false_iff, beq_eq_false_iff_ne]
  exact ⟨ne_of_isWordChar hc (by decide), ne_of_isWordChar hc (by decide)⟩

theorem isBreak_of_isWordChar (hc : isWordChar c) : isBreak c = false := by
  simp only [isBreak, Bool.or_eq_false_iff, beq_eq_false_iff_ne]
  exact ⟨⟨⟨⟨ne_of_isWordChar hc (by decide), ne_of_isWordChar hc (by decide)⟩,
    ne_of_isWordChar hc (by decide)⟩, ne_of_isWordChar hc (by decide)⟩,
    ne_of_isWordChar hc (by decide)⟩

theorem isText_of_isWordChar (hc : isWordChar c) : isText c := by
  have hrange : 0x20 ≤ c.toNat ∧ c.toNat ≤ 0x7e := by
    delta isWordChar Char.isAlphanum Char.isAlpha Char.isUpper Char.isLower Char.isDigit at hc
    simp only [Bool.or_eq_true, Bool.and_eq_true, decide_eq_true_eq, beq_iff_eq, ge_iff_le,
      UInt32.le_iff_toNat_le] at hc
    change ((65 ≤ c.toNat ∧ c.toNat ≤ 90 ∨ 97 ≤ c.toNat ∧ c.toNat ≤ 122) ∨
      48 ≤ c.toNat ∧ c.toNat ≤ 57) ∨ c = '_' at hc
    rcases hc with hc | rfl
    · omega
    · decide
  simp [isText, hrange.1, hrange.2]

theorem solid_cons (hblank : isBlank c = false) (hbreak : isBreak c = false) (hhash : c ≠ '#')
    (hmark : c ≠ byteOrderMark) : Solid (c :: text) := by
  intro d hd
  cases hd
  exact ⟨hblank, hbreak, hhash, hmark⟩

theorem IsWord.solid (hw : IsWord w) : Solid (w ++ text) := by
  cases hw with
  | letters h =>
    have hc := h _ List.mem_cons_self
    exact solid_cons (isBlank_of_isWordChar hc) (isBreak_of_isWordChar hc)
      (ne_of_isWordChar hc (by decide)) (ne_of_isWordChar hc (by decide))
  | minus h => exact solid_cons (by decide) (by decide) (by decide) (by decide)

theorem solid_colon : Solid (':' :: text) :=
  solid_cons (by decide) (by decide) (by decide) (by decide)

theorem IsWord.isText (hw : IsWord w) : ∀ c ∈ w, isText c := by
  cases hw with
  | letters h => exact fun c hc => isText_of_isWordChar (h c hc)
  | minus h =>
    intro c hc
    rcases List.mem_cons.mp hc with rfl | hc
    · decide
    · exact isText_of_isWordChar (h c hc)

theorem IsWord.length_pos (hw : IsWord w) : 0 < w.length := by
  cases hw <;> exact Nat.zero_lt_succ _

/-! ## 2. Places -/

namespace Cursor

theorem skip_skip : (cur.skip i).skip j = cur.skip (i + j) := by
  simp only [skip, List.drop_drop, Nat.add_assoc]

theorem rest_skip (h : cur.rest = w ++ text) : (cur.skip w.length).rest = text := by
  simp only [skip, h, List.drop_left]

theorem skipBreak_of_solid (h : Solid cur.rest) : cur.skipBreak = none := by
  have hne : ∀ {c rest}, cur.rest = c :: rest → isBreak c = false := fun {c _} e =>
    (h c (by rw [e]; rfl)).2.1
  unfold skipBreak
  split
  · rename_i e
    cases hne e
  · rename_i e
    cases hne e
  · rename_i e
    cases hne e
  · rename_i e
    rw [hne e]
    rfl
  · rfl

/-- The cursor on the next line, behind its indentation. -/
def nextLine (cur : Cursor) (column : Nat) (rest : List Char) : Cursor :=
  { rest, index := cur.index + 1 + column, line := cur.line + 1, column }

theorem skipBreak_newline (h : cur.rest = '\n' :: (List.replicate j ' ' ++ text)) :
    ∃ cur', cur.skipBreak = some ('\n', cur') ∧ cur'.column = 0 ∧
      cur'.rest = List.replicate j ' ' ++ text ∧ cur'.skip j = cur.nextLine j text := by
  unfold skipBreak
  simp only [h]
  refine ⟨_, rfl, rfl, rfl, ?_⟩
  simp [skip, nextLine]

theorem atDocumentMark_of_ne (h : cur.rest = c :: rest) (hminus : c ≠ '-') (hdot : c ≠ '.') :
    cur.atDocumentMark = false := by
  unfold atDocumentMark
  rw [h, Bool.and_eq_false_iff]
  refine .inr ?_
  split
  · rename_i e
    cases e
    exact absurd rfl hminus
  · rename_i e
    cases e
    exact absurd rfl hdot
  · rfl

theorem atDocumentMark_of_isWord (hw : IsWord w) (h : cur.rest = w ++ rest) :
    cur.atDocumentMark = false := by
  cases hw with
  | letters hc =>
    have hc := hc _ List.mem_cons_self
    exact atDocumentMark_of_ne h (ne_of_isWordChar hc (by decide))
      (ne_of_isWordChar hc (by decide))
  | minus hc =>
    have hc := ne_of_isWordChar (hc _ List.mem_cons_self) (show isWordChar '-' = false by decide)
    unfold atDocumentMark
    rw [h, Bool.and_eq_false_iff]
    refine .inr ?_
    split
    · rename_i e
      exact absurd (List.cons.inj (List.cons.inj e).2).1 hc
    · rename_i e
      cases (List.cons.inj e).1
    · rfl

end Cursor

/-! ## 3. Plain scalars -/

/-- A new line is read up to its first character. -/
theorem Gap.read_blanks (indent : Nat) {g : Gap} (hg : g.broken = true) (htext : Solid text) :
    ∀ (j fuel : Nat) (cur : Cursor), cur.rest = List.replicate j ' ' ++ text →
      j ≤ fuel → Gap.read indent fuel g cur = some (g, cur.skip j) := by
  intro j
  induction j with
  | zero =>
    intro fuel cur h _
    have hsolid : Solid cur.rest := by rw [h]; exact htext
    cases fuel with
    | zero => rfl
    | succ fuel =>
      unfold Gap.read
      split
      · rfl
      · rename_i e
        have hc := (hsolid _ (by rw [e]; rfl)).1
        rw [hc, Cursor.skipBreak_of_solid hsolid]
        rfl
  | succ j ih =>
    intro fuel cur h hle
    obtain ⟨fuel, rfl⟩ : ∃ k, fuel = k + 1 := ⟨fuel - 1, by omega⟩
    have hr : cur.rest = ' ' :: (List.replicate j ' ' ++ text) := h
    have hnext : (cur.skip 1).rest = List.replicate j ' ' ++ text := by
      simp only [Cursor.skip, hr, List.drop_succ_cons, List.drop_zero]
    have hblank : isBlank ' ' = true := by decide
    have hnotab : (' ' == '\t') = false := by decide
    unfold Gap.read
    simp only [hr, hblank, hg, hnotab, if_true, Bool.and_false, Bool.false_eq_true, if_false]
    rw [ih fuel (cur.skip 1) hnext (by omega), Cursor.skip_skip, Nat.add_comm 1 j]

/-- A plain scalar takes the characters of a word. -/
theorem readPlain_char {acc : List Char} (h : cur.rest = c :: rest)
    (hmark : cur.atDocumentMark = false) (hblank : isBlank c = false) (hbreak : isBreak c = false)
    (hcolon : c ≠ ':') :
    readPlain false indent (fuel + 1) acc {} cur =
      readPlain false indent fuel (acc ++ [c]) {} (cur.skip 1) := by
  have hcolon : (c == ':') = false := beq_eq_false_iff_ne.mpr hcolon
  simp [readPlain, h, hmark, hblank, hbreak, hcolon, Gap.text]

theorem readPlain_letters (hw : ∀ d ∈ w, isWordChar d) :
    ∀ (acc : List Char) (cur : Cursor), cur.rest = w ++ rest →
      readPlain false indent (fuel + w.length) acc {} cur =
        readPlain false indent fuel (acc ++ w) {} (cur.skip w.length) := by
  induction w with
  | nil =>
    intro acc cur _
    rw [List.append_nil]
    rfl
  | cons c cs ih =>
    intro acc cur h
    have hc := hw c List.mem_cons_self
    have hcs : ∀ d ∈ cs, isWordChar d := fun d hd => hw d (List.mem_cons_of_mem _ hd)
    have hmark := Cursor.atDocumentMark_of_isWord (.letters hw) h
    have hnext : (cur.skip 1).rest = cs ++ rest := by
      simp only [Cursor.skip, h, List.cons_append, List.drop_succ_cons, List.drop_zero]
    rw [List.length_cons, ← Nat.add_assoc, readPlain_char h hmark (isBlank_of_isWordChar hc)
      (isBreak_of_isWordChar hc) (ne_of_isWordChar hc (by decide)), ih hcs _ _ hnext,
      Cursor.skip_skip, List.append_assoc, Nat.add_comm 1 cs.length]
    rfl

/-- **A plain scalar takes a whole word.** -/
theorem readPlain_word (hw : IsWord w) (h : cur.rest = w ++ rest) (hfuel : w.length ≤ fuel) :
    readPlain false indent fuel [] {} cur =
      readPlain false indent (fuel - w.length) w {} (cur.skip w.length) := by
  obtain ⟨fuel, rfl⟩ : ∃ k, fuel = k + w.length := ⟨fuel - w.length, by omega⟩
  rw [Nat.add_sub_cancel]
  have hmark := Cursor.atDocumentMark_of_isWord hw h
  cases hw with
  | letters hw => exact readPlain_letters hw [] cur h
  | @minus c cs hw =>
    have hnext : (cur.skip 1).rest = (c :: cs) ++ rest := by
      simp only [Cursor.skip, h, List.cons_append, List.drop_succ_cons, List.drop_zero]
    rw [List.length_cons, ← Nat.add_assoc, readPlain_char h hmark (by decide) (by decide)
      (by decide), readPlain_letters hw _ _ hnext, Cursor.skip_skip,
      Nat.add_comm 1 (c :: cs).length]
    rfl

/-- It ends before a colon that a gap follows, -/
theorem readPlain_key (hw : IsWord w) (h : cur.rest = w ++ ':' :: rest) (hgap : atGap rest)
    (hfuel : w.length < fuel) :
    readPlain false indent fuel [] {} cur = some (w, false, cur.skip w.length) := by
  have hrest := Cursor.rest_skip h
  have hmark := Cursor.atDocumentMark_of_ne hrest (by decide) (by decide)
  have hblank : isBlank ':' = false := by decide
  have hbreak : isBreak ':' = false := by decide
  obtain ⟨k, hk⟩ : ∃ k, fuel - w.length = k + 1 := ⟨fuel - w.length - 1, by omega⟩
  rw [readPlain_word hw h (by omega), hk]
  simp [readPlain, hrest, hmark, hblank, hbreak, hgap]

/-- and at a line that is not deep enough to go on with it. -/
theorem readPlain_value (hw : IsWord w)
    (h : cur.rest = w ++ '\n' :: (List.replicate j ' ' ++ text)) (htext : Solid text)
    (hj : j < indent) (hfuel : w.length < fuel) :
    readPlain false indent fuel [] {} cur =
      some (w, true, (cur.skip w.length).nextLine j text) := by
  have hrest := Cursor.rest_skip h
  have hmark := Cursor.atDocumentMark_of_ne hrest (by decide) (by decide)
  have hblank : isBlank '\n' = false := by decide
  have hbreak : isBreak '\n' = true := by decide
  obtain ⟨cur', hcur, -, hrest', hskip⟩ := Cursor.skipBreak_newline hrest
  obtain ⟨k, hk⟩ : ∃ k, fuel - w.length = k + 1 := ⟨fuel - w.length - 1, by omega⟩
  have hgap : Gap.read indent (cur.skip w.length).rest.length {} (cur.skip w.length) =
      some ({ broken := true, first := some '\n' }, (cur.skip w.length).nextLine j text) := by
    have hread := Gap.read_blanks indent (g := { broken := true, first := some '\n' })
      rfl htext j (List.replicate j ' ' ++ text).length cur' hrest'
      (by rw [List.length_append, List.length_replicate]; omega)
    rw [hskip] at hread
    rw [hrest, List.length_cons]
    unfold Gap.read
    simp only [hrest, hblank, hcur, Bool.false_eq_true, if_false]
    exact hread
  have hlast : ((cur.skip w.length).nextLine j text).column < indent := hj
  rw [readPlain_word hw h (by omega), hk]
  unfold readPlain
  rw [hgap]
  simp [hrest, hmark, hbreak, hlast]

/-! ## 4. Open mappings -/

namespace Cutting

variable {s : Cutting} {ts : List Token} {levels : List Nat} {keyAllowed : Bool} {column : Nat}

/-- The columns around the innermost one. -/
def around : List Nat → List (Option Nat)
  | [] => []
  | _ :: levels => levels.head? :: around levels

/-- **Between two tokens**: the columns of the mappings that are open are `levels`, the innermost
first, and no possible key is remembered. -/
def between (ts : List Token) (levels : List Nat) (keyAllowed : Bool) (cursor : Cursor) : Cutting :=
  { cursor, tokens := ts, indent := levels.head?, outer := around levels, keyAllowed }

/-- The mappings that a line at a column leaves open, -/
def left (column : Nat) (levels : List Nat) : List Nat := levels.dropWhile (column < ·)

/-- the marks that close the others, -/
def closes (column : Nat) (levels : List Nat) : List Token :=
  (levels.takeWhile (column < ·)).map fun _ => Token.blockEnd

/-- the mark that opens one at the column, unless there is one, -/
def opens (column : Nat) (levels : List Nat) : List Token :=
  if (left column levels).head? = some column then [] else [Token.blockMappingStart]

/-- and what is open then. -/
def reach (column : Nat) (levels : List Nat) : List Nat :=
  if (left column levels).head? = some column then left column levels
  else column :: left column levels

theorem head?_left_le : ∀ i ∈ (left column levels).head?, i ≤ column := by
  intro i hi
  have h := List.head?_dropWhile_not (fun i => decide (column < i)) levels
  unfold left at hi
  rw [Option.mem_def.mp hi] at h
  simpa using h

theorem head?_reach : (reach column levels).head? = some column := by
  unfold reach
  split
  · assumption
  · rfl

theorem closeBlocks_between (ts : List Token) (levels : List Nat) (keyAllowed : Bool)
    (cur : Cursor) (column : Nat) :
    (between ts levels keyAllowed cur).closeBlocks (some column) =
      between (ts ++ closes column levels) (left column levels) keyAllowed cur := by
  have hfrom : ∀ (levels : List Nat) (ts : List Token),
      closeFrom (some column) (around levels) levels.head? ts =
        ((left column levels).head?, around (left column levels), ts ++ closes column levels) := by
    intro levels
    induction levels with
    | nil => exact fun ts => by simp [closeFrom, around, left, closes]
    | cons i levels ih =>
      intro ts
      by_cases h : column < i
      · simp [closeFrom, around, left, closes, h] at ih ⊢
        rw [ih]
        simp
      · simp [closeFrom, around, left, closes, h]
  simp [closeBlocks, inFlow, between, hfrom]

theorem closeBlocks_of_le (h : ∀ i ∈ s.indent, i ≤ column) : s.closeBlocks (some column) = s := by
  have hfrom : closeFrom (some column) s.outer s.indent s.tokens =
      (s.indent, s.outer, s.tokens) := by
    cases ho : s.outer with
    | nil => rfl
    | cons i outer =>
      unfold closeFrom
      cases hi : s.indent with
      | none => rfl
      | some k =>
        have hk : ¬ column < k := Nat.not_lt.mpr (h k hi)
        simp [hk]
  unfold closeBlocks
  rw [hfrom]
  split <;> rfl

theorem closeBlocks_none (ts : List Token) (levels : List Nat) :
    (between ts levels keyAllowed cur).closeBlocks none =
      between (ts ++ levels.map fun _ => Token.blockEnd) [] keyAllowed cur := by
  have hfrom : ∀ (levels : List Nat) (ts : List Token),
      closeFrom none (around levels) levels.head? ts =
        (none, [], ts ++ levels.map fun _ => Token.blockEnd) := by
    intro levels
    induction levels with
    | nil => exact fun ts => by simp [closeFrom, around]
    | cons i levels ih =>
      intro ts
      simp [closeFrom, around, ih]
  simp [closeBlocks, inFlow, between, hfrom, around]

/-! ## 5. Tokens -/

/-- Indentation is passed over. -/
theorem toNextToken_blanks (fuel j : Nat) (s : Cutting)
    (h : s.cursor.rest = List.replicate j ' ' ++ text) (htext : Solid text) :
    toNextToken (fuel + 1) s = s.skip j := by
  have hmark : s.cursor.rest.head? ≠ some byteOrderMark := by
    rw [h]
    cases j with
    | zero => exact fun e => (htext _ e).2.2.2 rfl
    | succ j => exact fun e => absurd (Option.some.inj e) (by decide)
  have htake : (s.cursor.rest.takeWhile fun c =>
      c == ' ' || ((s.inFlow || !s.keyAllowed) && c == '\t')).length = j := by
    rw [h, List.takeWhile_append_of_pos (by simp), List.length_append, List.length_replicate]
    have hstop : text.takeWhile (fun c =>
        c == ' ' || ((s.inFlow || !s.keyAllowed) && c == '\t')) = [] := by
      cases text with
      | nil => rfl
      | cons c text =>
        have hc := (htext c rfl).1
        simp only [isBlank, Bool.or_eq_false_iff] at hc
        simp [hc.1, hc.2]
    rw [hstop]
    rfl
  have hrest : (s.cursor.skip j).rest = text := by
    have := Cursor.rest_skip h
    rwa [List.length_replicate] at this
  have hhash : text.head? ≠ some '#' := fun e => (htext _ e).2.2.1 rfl
  have hbreak : (s.cursor.skip j).skipBreak = none :=
    Cursor.skipBreak_of_solid (by rw [hrest]; exact htext)
  unfold toNextToken
  simp only [Cursor.skipWhile, hmark, htake, hrest, hhash, hbreak, beq_iff_eq, if_false,
    Bool.and_eq_true, and_false]
  rfl

/-- The end of a line and the indentation of the next one are passed over. -/
theorem toNextToken_newline (hplaces : s.places = [])
    (h : s.cursor.rest = '\n' :: (List.replicate j ' ' ++ text)) (htext : Solid text) :
    toNextToken (fuel + 2) s =
      { s with cursor := s.cursor.nextLine j text, keyAllowed := true } := by
  obtain ⟨cur', hcur, -, hrest, hskip⟩ := Cursor.skipBreak_newline h
  have hstep : toNextToken (fuel + 2) s =
      toNextToken (fuel + 1) { s with cursor := cur', keyAllowed := true } := by
    have hzero : s.cursor.skip 0 = s.cursor := rfl
    rw [toNextToken]
    simp [Cursor.skipWhile, h, hcur, hzero, inFlow, hplaces, byteOrderMark]
  rw [hstep, toNextToken_blanks fuel j { s with cursor := cur', keyAllowed := true } hrest htext]
  exact congrArg (fun cur => { s with cursor := cur, keyAllowed := true }) hskip

/-- At the next token, with the mappings closed that are deeper than it. -/
def reached (s : Cutting) : Cutting :=
  let s := toNextToken (s.cursor.rest.length + 1) s
  s.closeBlocks (some s.cursor.column)

theorem cutAll_succ (fuel : Nat) (s : Cutting) : cutAll (fuel + 1) s =
    match s.reached.cursor.rest with
    | [] => (s.reached.closeBlocks none).dropPlace.map Cutting.tokens
    | c :: rest =>
      match s.reached.cutToken c rest with
      | none => none
      | some s => cutAll fuel s := rfl

/-- What is cut depends on the next token only, not on the way there. -/
theorem cutAll_of_toNextToken {s s' : Cutting} (h : toNextToken (s.cursor.rest.length + 1) s =
    toNextToken (s'.cursor.rest.length + 1) s') : cutAll fuel s = cutAll fuel s' := by
  cases fuel with
  | zero => rfl
  | succ fuel => rw [cutAll_succ, cutAll_succ, reached, reached, h]

/-- The cutter may as well start at the next line. -/
theorem cutAll_newline (h : cur.rest = '\n' :: (List.replicate j ' ' ++ text))
    (htext : Solid text) :
    cutAll fuel (between ts levels false cur) =
      cutAll fuel (between ts levels true (cur.nextLine j text)) := by
  refine cutAll_of_toNextToken ?_
  have hlength : cur.rest.length = (List.replicate j ' ' ++ text).length + 1 := by
    rw [h, List.length_cons]
  show toNextToken (cur.rest.length + 1) (between ts levels false cur) = _
  rw [hlength, toNextToken_newline rfl h htext]
  exact (toNextToken_blanks _ 0 (between ts levels true (cur.nextLine j text)) rfl htext).symm

theorem startsPlain_of_isWordChar (hc : isWordChar c) (rest : List Char) :
    startsPlain false c rest = true := by
  have hne : ∀ d, isWordChar d = false → (c == d) = false := fun d hd =>
    beq_eq_false_iff_ne.mpr (ne_of_isWordChar hc hd)
  simp (disch := decide) only [startsPlain, List.contains_cons, List.contains_nil, hne,
    isBlank_of_isWordChar hc, isBreak_of_isWordChar hc, Bool.or_false, Bool.not_false,
    Bool.true_or]

theorem cutToken_word (hplaces : s.places = []) (hw : IsWord w) (h : s.cursor.rest = w ++ rest) :
    ∃ c cs, s.cursor.rest = c :: cs ∧ s.cutToken c cs = s.cutPlain := by
  have hmark := Cursor.atDocumentMark_of_isWord hw h
  have hflow : s.inFlow = false := by simp [inFlow, hplaces]
  cases hw with
  | @letters c cs hw =>
    refine ⟨c, cs ++ rest, h, ?_⟩
    have hc := hw c List.mem_cons_self
    have hne : ∀ d, isWordChar d = false → (c == d) = false := fun d hd =>
      beq_eq_false_iff_ne.mpr (ne_of_isWordChar hc hd)
    unfold cutToken
    simp (disch := decide) only [hflow, hmark, startsPlain_of_isWordChar hc, hne, Bool.and_false,
      Bool.false_and, Bool.or_false, Bool.false_eq_true, if_false, if_true]
  | @minus c cs hw =>
    refine ⟨'-', c :: (cs ++ rest), h, ?_⟩
    have hblank := isBlank_of_isWordChar (hw c List.mem_cons_self)
    have hbreak := isBreak_of_isWordChar (hw c List.mem_cons_self)
    have hstart : startsPlain false '-' (c :: (cs ++ rest)) = true := by
      simp [startsPlain, hblank]
    unfold cutToken
    simp [hflow, hmark, hstart, atGap, hblank, hbreak, singleQuote, doubleQuote]

theorem cutToken_colon (hplaces : s.places = []) (h : s.cursor.rest = ':' :: rest)
    (hgap : atGap rest) : s.cutToken ':' rest = s.cutValue := by
  have hmark := Cursor.atDocumentMark_of_ne h (by decide) (by decide)
  have hflow : s.inFlow = false := by simp [inFlow, hplaces]
  unfold cutToken
  simp [hflow, hmark, hgap]

section Turn

variable {s t t' : Cutting} (hnext : toNextToken (s.cursor.rest.length + 1) s = t')
  (hclose : t'.closeBlocks (some t'.cursor.column) = t)
include hnext hclose

theorem reached_eq : s.reached = t := by
  rw [reached, hnext]
  exact hclose

/-- **One turn of the cutter**, once the next token is reached. -/
theorem cutAll_turn (hrest : t.cursor.rest = c :: rest) :
    cutAll (fuel + 1) s = (t.cutToken c rest).bind (cutAll fuel) := by
  rw [cutAll_succ, reached_eq hnext hclose, hrest]
  dsimp only
  cases t.cutToken c rest <;> rfl

theorem cutAll_end (hrest : t.cursor.rest = []) :
    cutAll (fuel + 1) s = (t.closeBlocks none).dropPlace.map Cutting.tokens := by
  rw [cutAll_succ, reached_eq hnext hclose, hrest]

end Turn

/-! ## 6. A key and its colon -/

/-- The place of a key. -/
def keyPlace (ts : List Token) (levels : List Nat) (cur : Cursor) : KeyPlace :=
  { position := ts.length, required := levels.head? == some cur.column
    index := cur.index, line := cur.line, column := cur.column }

/-- Behind a word that may be a key. -/
def behindKey (ts : List Token) (levels : List Nat) (p : KeyPlace) (cur : Cursor) : Cutting :=
  { between ts levels false cur with place := some p }

/-- A word that may be a key is remembered as one. -/
theorem cutPlain_key (hw : IsWord w) (h : cur.rest = w ++ ':' :: rest) (hgap : atGap rest) :
    (between ts levels true cur).cutPlain =
      some (behindKey (ts ++ [Token.scalar ⟨String.ofList w, true⟩]) levels (keyPlace ts levels cur)
        (cur.skip w.length)) := by
  have hfuel : w.length < 2 * cur.rest.length + 1 := by
    rw [h, List.length_append]
    omega
  unfold cutPlain
  simp only [between, savePlace, dropPlace, inFlow, List.isEmpty_nil, Bool.not_true, Bool.not_false,
    Bool.true_and, if_true, Option.bind_eq_bind, Option.bind_some, Option.pure_def]
  rw [readPlain_key hw h hgap hfuel]
  rfl

section Colon

variable {p : KeyPlace} {t : Token} (hpos : p.position = ts.length)
  (hle : ∀ i ∈ levels.head?, i ≤ p.column)
include hpos hle

/-- The colon behind a key puts the mark of the key before it, and opens a mapping there if none is
open at its column. -/
theorem cutKeyed_behindKey : (behindKey (ts ++ [t]) levels p cur).cutKeyed p =
    between
      (ts ++ ((if levels.head? = some p.column then [] else [Token.blockMappingStart]) ++
        [Token.key, t, .value]))
      (if levels.head? = some p.column then levels else p.column :: levels) false (cur.skip 1) := by
  cases levels with
  | nil => simp [behindKey, cutKeyed, openBlock, between, inFlow, emit, skip, around, hpos]
  | cons i levels =>
    have hi : i ≤ p.column := hle i rfl
    by_cases he : i = p.column
    · simp [behindKey, cutKeyed, openBlock, between, inFlow, emit, skip, around, hpos, he]
    · have hlt : i < p.column := by omega
      simp [behindKey, cutKeyed, openBlock, between, inFlow, emit, skip, around, hpos, he, hlt]

theorem cutAll_colon (hcol : p.column ≤ cur.column) (hfits : fits p cur)
    (h : cur.rest = ':' :: rest) (hgap : atGap rest) :
    cutAll (fuel + 1) (behindKey (ts ++ [t]) levels p cur) =
      cutAll fuel (between
        (ts ++ ((if levels.head? = some p.column then [] else [Token.blockMappingStart]) ++
          [Token.key, t, .value]))
        (if levels.head? = some p.column then levels else p.column :: levels) false
        (cur.skip 1)) := by
  have hnext := toNextToken_blanks cur.rest.length 0 (behindKey (ts ++ [t]) levels p cur) h
    solid_colon
  have hclose : (behindKey (ts ++ [t]) levels p cur).closeBlocks (some cur.column) =
      behindKey (ts ++ [t]) levels p cur :=
    closeBlocks_of_le fun i hi => Nat.le_trans (hle i hi) hcol
  have hvalue : (behindKey (ts ++ [t]) levels p cur).cutValue =
      some ((behindKey (ts ++ [t]) levels p cur).cutKeyed p) := if_pos hfits
  rw [cutAll_turn hnext hclose h, cutToken_colon rfl h hgap, hvalue, Option.bind_some,
    cutKeyed_behindKey hpos hle]

end Colon

/-- **A key and its colon** close what is deeper and open what is missing. -/
theorem cutAll_key (fuel : Nat) (ts : List Token) (levels : List Nat) (hw : IsWord w)
    (hlen : w.length ≤ maxKeyLength) (h : cur.rest = w ++ ':' :: rest) (hgap : atGap rest) :
    cutAll (fuel + 2) (between ts levels true cur) =
      cutAll fuel (between
        (ts ++ (closes cur.column levels ++ (opens cur.column levels ++
          [Token.key, .scalar ⟨String.ofList w, true⟩, .value])))
        (reach cur.column levels) false (cur.skip (w.length + 1))) := by
  have hnext := toNextToken_blanks cur.rest.length 0 (between ts levels true cur) h hw.solid
  have hclose := closeBlocks_between ts levels true cur cur.column
  obtain ⟨c, cs, hcs, hcut⟩ := cutToken_word
    (s := between (ts ++ closes cur.column levels) (left cur.column levels) true cur) rfl hw h
  have hle : ∀ i ∈ (left cur.column levels).head?, i ≤ (keyPlace (ts ++ closes cur.column levels)
      (left cur.column levels) cur).column := head?_left_le
  have hfits : fits (keyPlace (ts ++ closes cur.column levels) (left cur.column levels) cur)
      (cur.skip w.length) := by
    simp [fits, keyPlace, Cursor.skip, hlen]
  rw [cutAll_turn hnext hclose hcs, hcut, cutPlain_key hw h hgap, Option.bind_some,
    cutAll_colon rfl hle (Nat.le_add_right _ _) hfits (Cursor.rest_skip h) hgap,
    Cursor.skip_skip, List.append_assoc]
  rfl

/-! ## 7. A value -/

theorem cutPlain_value (hw : IsWord w) (hlevel : levels.head? = some i) (hj : j ≤ i)
    (h : cur.rest = w ++ '\n' :: (List.replicate j ' ' ++ text)) (htext : Solid text) :
    (between ts levels false cur).cutPlain =
      some (between (ts ++ [Token.scalar ⟨String.ofList w, true⟩]) levels true
        ((cur.skip w.length).nextLine j text)) := by
  have hfuel : w.length < 2 * cur.rest.length + 1 := by
    rw [h, List.length_append]
    omega
  unfold cutPlain
  simp only [between, savePlace, inFlow, List.isEmpty_nil, Bool.not_true, Bool.false_eq_true,
    if_false, Option.bind_eq_bind, Option.bind_some, Option.pure_def, hlevel]
  rw [readPlain_value hw h htext (Nat.lt_succ_of_le hj) hfuel]
  rfl

/-- **A value** ends with its line. -/
theorem cutAll_value (hw : IsWord w) (hlevel : levels.head? = some i) (hi : i ≤ cur.column)
    (hj : j ≤ i) (h : cur.rest = ' ' :: (w ++ '\n' :: (List.replicate j ' ' ++ text)))
    (htext : Solid text) :
    cutAll (fuel + 1) (between ts levels false cur) =
      cutAll fuel (between (ts ++ [Token.scalar ⟨String.ofList w, true⟩]) levels true
        ((cur.skip (1 + w.length)).nextLine j text)) := by
  have hnext := toNextToken_blanks cur.rest.length 1 (between ts levels false cur) h hw.solid
  have hrest : (cur.skip 1).rest = w ++ '\n' :: (List.replicate j ' ' ++ text) :=
    Cursor.rest_skip (w := [' ']) h
  have hclose : (between ts levels false (cur.skip 1)).closeBlocks (some (cur.skip 1).column) =
      between ts levels false (cur.skip 1) := by
    refine closeBlocks_of_le fun k hk => ?_
    have hk : levels.head? = some k := hk
    have hki : k = i := Option.some.inj (hk.symm.trans hlevel)
    show k ≤ cur.column + 1
    omega
  obtain ⟨c, cs, hcs, hcut⟩ :=
    cutToken_word (s := between ts levels false (cur.skip 1)) rfl hw hrest
  rw [cutAll_turn hnext hclose hcs, hcut, cutPlain_value hw hlevel hj hrest htext,
    Option.bind_some, Cursor.skip_skip]

end Cutting

/-! ## 8. Lines -/

namespace Line

def tokens (l : Line) : List Token :=
  [Token.key, .scalar ⟨l.key, true⟩, .value] ++
    match l.value with
    | none => []
    | some v => [Token.scalar ⟨v, true⟩]

end Line

/-- The indentation of the first line. -/
def lead : List Line → Nat
  | [] => 0
  | l :: _ => l.indent

/-- **Lines that can be read back**: their keys and values are words, the keys are not too long, and
a line below a value is not deeper than it. -/
def Laid : List Line → Prop
  | [] => True
  | l :: ls => IsWord l.key.toList ∧ l.key.toList.length ≤ Cutting.maxKeyLength ∧
      (∀ v ∈ l.value, IsWord v.toList ∧ lead ls ≤ l.indent) ∧ Laid ls

/-- A text that can be a key as it stands. -/
def IsKey (key : String) : Prop :=
  key.toList ≠ [] ∧ key.toList.all isWordChar ∧ key.toList.length ≤ Cutting.maxKeyLength

instance (key : String) : Decidable (IsKey key) := inferInstanceAs (Decidable (_ ∧ _ ∧ _))

theorem IsKey.isWord {key : String} (h : IsKey key) : IsWord key.toList := isWord_of_all h.1 h.2.1

theorem Laid.cons_none {key : String} {ls : List Line} (hkey : IsKey key) (hls : Laid ls) :
    Laid (⟨i, key, none⟩ :: ls) :=
  ⟨hkey.isWord, hkey.2.2, nofun, hls⟩

theorem Laid.cons_some {key value : String} {ls : List Line} (hkey : IsKey key)
    (hvalue : IsWord value.toList) (hlead : lead ls ≤ i) (hls : Laid ls) :
    Laid (⟨i, key, some value⟩ :: ls) := by
  refine ⟨hkey.isWord, hkey.2.2, fun v hv => ?_, hls⟩
  cases hv
  exact ⟨hvalue, hlead⟩

/-- **The tokens of lines**, with the mappings at `levels` open before them. -/
def lineTokens : List Nat → List Line → List Token
  | levels, [] => levels.map fun _ => Token.blockEnd
  | levels, l :: ls =>
    Cutting.closes l.indent levels ++ (Cutting.opens l.indent levels ++
      (l.tokens ++ lineTokens (Cutting.reach l.indent levels) ls))

/-- The text from behind the first indentation. -/
def linesFrom : List Line → List Char
  | [] => []
  | l :: ls => l.key.toList ++ ':' :: (l.valueText ++ '\n' :: linesText ls)

theorem linesText_eq (ls : List Line) :
    linesText ls = List.replicate (lead ls) ' ' ++ linesFrom ls := by
  cases ls with
  | nil => rfl
  | cons l ls => simp [linesText, lead, linesFrom, Line.chars]

theorem Laid.solid {ls : List Line} (h : Laid ls) : Solid (linesFrom ls) := by
  cases ls with
  | nil => exact nofun
  | cons l ls => exact h.1.solid

theorem Laid.isText {ls : List Line} (h : Laid ls) : ∀ c ∈ linesText ls, isText c := by
  induction ls with
  | nil => exact nofun
  | cons l ls ih =>
    obtain ⟨hkey, -, hvalue, hls⟩ := h
    have hvalueText : ∀ c ∈ l.valueText, Yaml.isText c := by
      unfold Line.valueText
      cases hv : l.value with
      | none => exact nofun
      | some v =>
        intro c hc
        rcases List.mem_cons.mp hc with rfl | hc
        · decide
        · exact (hvalue v hv).1.isText c hc
    intro c hc
    rw [linesText, List.flatMap_cons, ← linesText, Line.chars] at hc
    simp only [List.mem_append, List.mem_cons, List.mem_replicate, List.not_mem_nil, or_false] at hc
    rcases hc with (⟨-, rfl⟩ | hc | rfl | hc | rfl) | hc
    · decide
    · exact hkey.isText c hc
    · decide
    · exact hvalueText c hc
    · decide
    · exact ih hls c hc

namespace Cutting

variable {ts : List Token} {levels : List Nat} {l : Line} {ls : List Line}

/-- **One line**: the cutter is at the next one then. -/
theorem cutAll_line (fuel : Nat) (ts : List Token) (levels : List Nat) (hls : Laid (l :: ls))
    (hcol : cur.column = l.indent) (hrest : cur.rest = linesFrom (l :: ls)) :
    ∃ cur' : Cursor, cur'.column = lead ls ∧ cur'.rest = linesFrom ls ∧
      cutAll (fuel + 3) (between ts levels true cur) =
        cutAll (if l.value = none then fuel + 1 else fuel) (between
          (ts ++ (closes l.indent levels ++ (opens l.indent levels ++ l.tokens)))
          (reach l.indent levels) true cur') := by
  obtain ⟨hkey, hlen, hvalue, hls⟩ := hls
  have hgap : atGap (l.valueText ++ '\n' :: linesText ls) := by
    unfold Line.valueText
    cases l.value <;> rfl
  have hcut := cutAll_key (fuel + 1) ts levels hkey hlen hrest hgap
  have hbehind : (cur.skip (l.key.toList.length + 1)).rest =
      l.valueText ++ '\n' :: (List.replicate (lead ls) ' ' ++ linesFrom ls) := by
    rw [← Cursor.skip_skip, ← linesText_eq]
    exact Cursor.rest_skip (w := [':']) (Cursor.rest_skip hrest)
  rw [hcut, hcol, String.ofList_toList]
  obtain ⟨indent, key, _ | v⟩ := l
  · exact ⟨(cur.skip (key.toList.length + 1)).nextLine (lead ls) (linesFrom ls), rfl, rfl,
      cutAll_newline hbehind hls.solid⟩
  · obtain ⟨hword, hlead⟩ := hvalue v rfl
    have hcolumn : indent ≤ (cur.skip (key.toList.length + 1)).column := by
      show indent ≤ cur.column + (key.toList.length + 1)
      exact Nat.le_trans (Nat.le_of_eq hcol.symm) (Nat.le_add_right _ _)
    refine ⟨((cur.skip (key.toList.length + 1)).skip (1 + v.toList.length)).nextLine (lead ls)
      (linesFrom ls), rfl, rfl, ?_⟩
    refine (cutAll_value hword head?_reach hcolumn hlead hbehind hls.solid).trans ?_
    rw [String.ofList_toList, List.append_assoc, List.append_assoc, List.append_assoc]
    rfl

/-- At the end of the text all is closed. -/
theorem cutAll_nil (fuel : Nat) (ts : List Token) (levels : List Nat) (hrest : cur.rest = []) :
    cutAll (fuel + 1) (between ts levels true cur) =
      some (ts ++ levels.map fun _ => Token.blockEnd) := by
  have hnil : cur.rest = List.replicate 0 ' ' ++ [] := hrest
  have hnext := toNextToken_blanks cur.rest.length 0 (between ts levels true cur) hnil nofun
  have hall : closes cur.column levels ++
      (left cur.column levels).map (fun _ => Token.blockEnd) =
        levels.map fun _ => Token.blockEnd := by
    rw [closes, left, ← List.map_append, List.takeWhile_append_dropWhile]
  have hclose : ((between ts levels true cur).skip 0).closeBlocks (some cur.column) =
      between (ts ++ closes cur.column levels) (left cur.column levels) true cur :=
    closeBlocks_between ts levels true cur cur.column
  rw [cutAll_end hnext hclose hrest, closeBlocks_none, List.append_assoc, hall]
  rfl

/-- A line takes three turns of the cutter if it has a value and two if not, and is long enough for
them. -/
theorem length_linesFrom (hls : Laid (l :: ls)) :
    (linesFrom ls).length + (if l.value = none then 2 else 3) ≤ (linesFrom (l :: ls)).length := by
  have hkey := hls.1.length_pos
  have hlen : (linesFrom (l :: ls)).length =
      l.key.toList.length + l.valueText.length + 2 + lead ls + (linesFrom ls).length := by
    rw [linesFrom, linesText_eq]
    simp only [List.length_append, List.length_cons, List.length_replicate]
    omega
  obtain ⟨indent, key, _ | v⟩ := l
  · rw [if_pos rfl]
    omega
  · have hvalue : (Line.valueText ⟨indent, key, some v⟩).length = v.toList.length + 1 := rfl
    rw [if_neg nofun]
    omega

/-- **Line after line**, down to the end of the text. -/
theorem cutAll_lines (ls : List Line) : ∀ (ts : List Token) (levels : List Nat) (cur : Cursor)
    (fuel : Nat), Laid ls → cur.column = lead ls → cur.rest = linesFrom ls →
      (linesFrom ls).length < fuel →
      cutAll fuel (between ts levels true cur) = some (ts ++ lineTokens levels ls) := by
  induction ls with
  | nil =>
    intro ts levels cur fuel _ _ hrest hfuel
    obtain ⟨fuel, rfl⟩ : ∃ k, fuel = k + 1 := ⟨fuel - 1, by omega⟩
    exact cutAll_nil fuel ts levels hrest
  | cons l ls ih =>
    intro ts levels cur fuel hls hcol hrest hfuel
    have hlen := length_linesFrom hls
    obtain ⟨fuel, rfl⟩ : ∃ k, fuel = k + 3 := ⟨fuel - 3, by split at hlen <;> omega⟩
    obtain ⟨cur', hcol', hrest', hcut⟩ := cutAll_line fuel ts levels hls hcol hrest
    have hbound : (linesFrom ls).length < if l.value = none then fuel + 1 else fuel := by
      split at hlen
      · rw [if_pos ‹_›]
        omega
      · rw [if_neg ‹_›]
        omega
    rw [hcut, ih _ _ cur' _ hls.2.2.2 hcol' hrest' hbound]
    simp only [lineTokens, List.append_assoc]

end Cutting

/-- **A text of lines is cut into its tokens.** -/
theorem tokensOf_lines {ls : List Line} (h : Laid ls) :
    tokensOf (linesText ls) = some (lineTokens [] ls) := by
  have htext : (linesText ls).all isText = true := List.all_eq_true.mpr h.isText
  have hnext := Cutting.toNextToken_blanks (linesText ls).length (lead ls)
    (Cutting.between [] [] true { rest := linesText ls }) (linesText_eq ls) h.solid
  have hnext' := Cutting.toNextToken_blanks (linesFrom ls).length 0
    (Cutting.between [] [] true { rest := linesFrom ls, index := lead ls, column := lead ls })
    rfl h.solid
  have hfuel : (linesFrom ls).length < (linesText ls).length + 1 := by
    rw [linesText_eq, List.length_append]
    omega
  have hcut := Cutting.cutAll_lines ls [] []
    { rest := linesFrom ls, index := lead ls, column := lead ls } _ h rfl rfl hfuel
  unfold tokensOf
  rw [if_pos htext, ← List.nil_append (lineTokens [] ls), ← hcut]
  refine Cutting.cutAll_of_toNextToken (hnext.trans (Eq.trans ?_ hnext'.symm))
  have hskip : ({ rest := linesText ls } : Cursor).skip (lead ls) =
      { rest := linesFrom ls, index := lead ls, column := lead ls } := by
    have hrest : (({ rest := linesText ls } : Cursor).skip
        (List.replicate (lead ls) ' ').length).rest = linesFrom ls :=
      Cursor.rest_skip (linesText_eq ls)
    rw [List.length_replicate] at hrest
    simp only [Cursor.skip, Nat.zero_add] at hrest ⊢
    rw [hrest]
  exact congrArg (Cutting.between [] [] true) hskip

end ValueFlow.Yaml
