import ValueFlow.Proofs.Yaml.Decimal

/-!
# The library for blocks is faithful

What `blocks` prints of a block mapping, of whatever depth, it reads as this mapping. The lines that
are printed are cut into the tokens of the mapping (`Value.lineTokens_entryLines`): a mapping inside
another one opens with its first line, and closes before the next line that is not deeper than the
key above it. The tokens are put together to the node of the mapping (`Value.readEntries_tokens`),
and the node answers as it should (`Value.shows_node`).

Each of the three is a pair of inductions, over a value and over the entries of a mapping.
-/

namespace ValueFlow.Yaml

/-! ## 1. Plain strings -/

theorem isKey_of_isPlain {s : String} (h : isPlain s = true) : IsKey s := by
  simp only [isPlain, Bool.and_eq_true, decide_eq_true_eq] at h
  obtain ⟨⟨⟨hhead, hall⟩, hlength⟩, -⟩ := h
  refine ⟨fun hnil => ?_, hall, Nat.le_trans hlength (by decide)⟩
  rw [hnil] at hhead
  cases hhead

theorem isNull_of_isPlain {s : String} (h : isPlain s = true) :
    Scalar.isNull ⟨s, true⟩ = false := by
  have hne : ∀ t : String, isPlain t = false → s ≠ t := by
    rintro t ht rfl
    rw [h] at ht
    cases ht
  simp only [Scalar.isNull, Bool.true_and, Bool.or_eq_false_iff, beq_eq_false_iff_ne]
  exact ⟨⟨⟨⟨hne _ (by decide +kernel), hne _ (by decide +kernel)⟩, hne _ (by decide +kernel)⟩,
    hne _ (by decide +kernel)⟩, hne _ (by decide +kernel)⟩

namespace Value

theorem areBlocks_cons {key : String} {v : Value} {entries : List (String × Value)} :
    areBlocks ((key, v) :: entries) = true ↔
      isPlain key = true ∧ v.isBlock = true ∧ areBlocks entries = true := by
  simp [areBlocks, and_assoc]

theorem isBlock_mapping {entries : List (String × Value)} :
    (mapping entries).isBlock = true ↔
      entries ≠ [] ∧ (entries.map Prod.fst).Nodup ∧ areBlocks entries = true := by
  simp [isBlock, and_assoc]

/-! ## 2. Lines -/

theorem lead_lines (v : Value) (i : Nat) (key : String) (ls : List Line) :
    lead (v.lines i key ++ ls) = i := by
  cases v <;> rfl

theorem lead_entryLines {rest : List Line} {i : Nat} (hlead : lead rest ≤ i)
    (entries : List (String × Value)) :
    lead (entryLines i entries ++ rest) ≤ i := by
  cases entries with
  | nil => exact hlead
  | cons e entries =>
    rw [entryLines, List.append_assoc]
    exact Nat.le_of_eq (lead_lines e.2 i e.1 _)

mutual

/-- **The lines of an entry can be read back**, if those behind it can and are not deeper. -/
theorem laid_lines (v : Value) (hv : v.isBlock = true) {key : String} (hkey : isPlain key = true)
    {rest : List Line} (hrest : Laid rest) {i : Nat} (hlead : lead rest ≤ i) :
    Laid (v.lines i key ++ rest) := by
  have hkey := isKey_of_isPlain hkey
  cases v with
  | null => cases hv
  | integer n => exact .cons_some hkey (isWord_toString_int n) hlead hrest
  | string s => exact .cons_some hkey (isKey_of_isPlain hv).isWord hlead hrest
  | mapping entries =>
    have hblocks := (isBlock_mapping.mp hv).2.2
    exact .cons_none hkey
      (laid_entryLines entries hblocks hrest (Nat.le_trans hlead (Nat.le_add_right i 2)))

theorem laid_entryLines (entries : List (String × Value)) (hentries : areBlocks entries = true)
    {rest : List Line} (hrest : Laid rest) {i : Nat} (hlead : lead rest ≤ i) :
    Laid (entryLines i entries ++ rest) := by
  cases entries with
  | nil => exact hrest
  | cons e entries =>
    obtain ⟨key, v⟩ := e
    obtain ⟨hkey, hv, hentries⟩ := areBlocks_cons.mp hentries
    rw [entryLines, List.append_assoc]
    exact laid_lines v hv hkey (laid_entryLines entries hentries hrest hlead)
      (lead_entryLines hlead entries)

end

/-! ## 3. Tokens -/

mutual

/-- **The tokens of a value.** -/
def tokens : Value → List Token
  | .null => [.scalar ⟨"null", true⟩]
  | .integer n => [.scalar ⟨toString n, true⟩]
  | .string s => [.scalar ⟨s, true⟩]
  | .mapping entries => .blockMappingStart :: (entryTokens entries ++ [.blockEnd])

def entryTokens : List (String × Value) → List Token
  | [] => []
  | (key, v) :: entries =>
    .key :: .scalar ⟨key, true⟩ :: .value :: (v.tokens ++ entryTokens entries)

end

section Levels

variable {rest : List Line} {levels : List Nat} {j : Nat}

/-- A line at the column of the innermost mapping adds to it. -/
theorem lineTokens_same (l : Line) (ls : List Line) (levels : List Nat) :
    lineTokens (l.indent :: levels) (l :: ls) = l.tokens ++ lineTokens (l.indent :: levels) ls := by
  simp [lineTokens, Cutting.closes, Cutting.opens, Cutting.reach, Cutting.left]

/-- A line that is deeper opens a mapping. -/
theorem lineTokens_open {l : Line} (ls : List Line) (h : ∀ j ∈ levels.head?, j < l.indent) :
    lineTokens levels (l :: ls) =
      Token.blockMappingStart :: lineTokens (l.indent :: levels) (l :: ls) := by
  cases levels with
  | nil => simp [lineTokens, Cutting.closes, Cutting.opens, Cutting.reach, Cutting.left]
  | cons j levels =>
    have hj : j < l.indent := h j rfl
    have hle : ¬ l.indent < j := by omega
    have hne : j ≠ l.indent := by omega
    simp [lineTokens, Cutting.closes, Cutting.opens, Cutting.reach, Cutting.left, hle, hne]

/-- Lines that are less deep close a mapping. -/
theorem lineTokens_close (h : lead rest < j) :
    lineTokens (j :: levels) rest = Token.blockEnd :: lineTokens levels rest := by
  cases rest with
  | nil => rfl
  | cons l ls =>
    have hlt : l.indent < j := h
    have hleft : Cutting.left l.indent (j :: levels) = Cutting.left l.indent levels := by
      simp [Cutting.left, hlt]
    have hcloses : Cutting.closes l.indent (j :: levels) =
        Token.blockEnd :: Cutting.closes l.indent levels := by
      simp [Cutting.closes, hlt]
    unfold lineTokens Cutting.opens Cutting.reach
    rw [hleft, hcloses]
    rfl

theorem lineTokens_open_entryLines {entries : List (String × Value)} (hne : entries ≠ [])
    (h : ∀ k ∈ levels.head?, k < j) :
    lineTokens levels (entryLines j entries ++ rest) =
      Token.blockMappingStart :: lineTokens (j :: levels) (entryLines j entries ++ rest) := by
  cases entries with
  | nil => exact absurd rfl hne
  | cons e entries =>
    obtain ⟨key, v⟩ := e
    rw [entryLines, List.append_assoc]
    cases v <;> exact lineTokens_open _ h

end Levels

mutual

/-- **The lines of an entry are cut into its tokens.** -/
theorem lineTokens_lines (v : Value) (hv : v.isBlock = true) (key : String) {rest : List Line}
    {i : Nat} (hlead : lead rest ≤ i) (levels : List Nat) :
    lineTokens (i :: levels) (v.lines i key ++ rest) =
      Token.key :: .scalar ⟨key, true⟩ :: .value ::
        (v.tokens ++ lineTokens (i :: levels) rest) := by
  cases v with
  | null | integer | string => exact lineTokens_same _ rest levels
  | mapping entries =>
    obtain ⟨hne, -, hblocks⟩ := isBlock_mapping.mp hv
    have hlead' : lead rest < i + 2 := Nat.lt_add_right 1 (Nat.lt_succ_of_le hlead)
    have hinner := lineTokens_entryLines entries hblocks (Nat.le_of_lt hlead') (i :: levels)
    rw [lineTokens_close hlead'] at hinner
    have hopen : ∀ k ∈ (i :: levels).head?, k < i + 2 := by
      intro k hk
      cases hk
      omega
    have hkey := lineTokens_same ⟨i, key, none⟩ (entryLines (i + 2) entries ++ rest) levels
    rw [lineTokens_open_entryLines hne hopen, hinner] at hkey
    refine hkey.trans ?_
    simp [Line.tokens, tokens]

theorem lineTokens_entryLines (entries : List (String × Value))
    (hentries : areBlocks entries = true) {rest : List Line} {i : Nat} (hlead : lead rest ≤ i)
    (levels : List Nat) :
    lineTokens (i :: levels) (entryLines i entries ++ rest) =
      entryTokens entries ++ lineTokens (i :: levels) rest := by
  cases entries with
  | nil => rfl
  | cons e entries =>
    obtain ⟨key, v⟩ := e
    obtain ⟨-, hv, hentries⟩ := areBlocks_cons.mp hentries
    rw [entryLines, List.append_assoc,
      lineTokens_lines v hv key (lead_entryLines hlead entries) levels,
      lineTokens_entryLines entries hentries hlead levels, entryTokens]
    simp

end

/-- **A block mapping is cut into its tokens.** -/
theorem tokensOf_entryLines {entries : List (String × Value)}
    (h : (mapping entries).isBlock = true) :
    tokensOf (linesText (entryLines 0 entries)) = some (mapping entries).tokens := by
  obtain ⟨hne, -, hblocks⟩ := isBlock_mapping.mp h
  have hnil : Laid [] := trivial
  have hlaid := laid_entryLines entries hblocks hnil (Nat.le_refl 0)
  have hnone : ∀ k ∈ ([] : List Nat).head?, k < 0 := fun k hk => (by cases hk)
  have hopen : lineTokens [] (entryLines 0 entries ++ []) = _ :=
    lineTokens_open_entryLines hne hnone
  rw [lineTokens_entryLines entries hblocks (Nat.le_refl 0)] at hopen
  rw [List.append_nil] at hlaid hopen
  rw [tokensOf_lines hlaid, hopen, tokens]
  rfl

/-! ## 4. Nodes -/

mutual

/-- **The node of a value.** -/
def node : Value → Node
  | .null => .scalar ⟨"null", true⟩
  | .integer n => .scalar ⟨toString n, true⟩
  | .string s => .scalar ⟨s, true⟩
  | .mapping entries => .mapping (entryNodes entries)

def entryNodes : List (String × Value) → List (Node × Node)
  | [] => []
  | (key, v) :: entries => (.scalar ⟨key, true⟩, v.node) :: entryNodes entries

end

section Reading

variable {fuel : Nat} {part : Node}

theorem read_mapping (fuel : Nat) (indentless : Bool) (ts : List Token) :
    Node.read (fuel + 1) true indentless (.blockMappingStart :: ts) = Node.readEntries fuel [] ts :=
  rfl

theorem readPart_tokens (v : Value) (ts : List Token) :
    Node.readPart (fuel + 1) (v.tokens ++ ts) = Node.read fuel true true (v.tokens ++ ts) := by
  cases v <;> rfl

theorem readEntries_key (key : String) (acc : List (Node × Node)) (ts : List Token) :
    Node.readEntries (fuel + 3) acc (.key :: .scalar ⟨key, true⟩ :: .value :: ts) =
      match Node.readPart (fuel + 2) ts with
      | none => none
      | some (v, rest) =>
        Node.readEntries (fuel + 2) (acc ++ [(.scalar ⟨key, true⟩, v)]) rest := rfl

/-- One entry, once its value is read. -/
theorem readEntries_cons (key : String) (acc : List (Node × Node)) {ts ts' : List Token}
    (h : Node.readPart (fuel + 2) ts = some (part, ts')) :
    Node.readEntries (fuel + 3) acc (.key :: .scalar ⟨key, true⟩ :: .value :: ts) =
      Node.readEntries (fuel + 2) (acc ++ [(.scalar ⟨key, true⟩, part)]) ts' := by
  rw [readEntries_key, h]

end Reading

mutual

/-- **The tokens of a value are put together to its node.** -/
theorem read_tokens (v : Value) (ts : List Token) (indentless : Bool) {fuel : Nat}
    (hfuel : 3 * v.tokens.length ≤ fuel) :
    Node.read fuel true indentless (v.tokens ++ ts) = some (v.node, ts) := by
  cases fuel with
  | zero => cases v <;> simp [tokens] at hfuel
  | succ fuel =>
    cases v with
    | null | integer | string => rfl
    | mapping entries =>
      have hentries : 3 * (entryTokens entries).length + 1 ≤ fuel := by
        simp only [tokens, List.length_cons, List.length_append, List.length_nil] at hfuel
        omega
      rw [tokens, List.cons_append, List.append_assoc, read_mapping]
      exact readEntries_tokens entries [] ts hentries

theorem readEntries_tokens (entries : List (String × Value)) (acc : List (Node × Node))
    (ts : List Token) {fuel : Nat} (hfuel : 3 * (entryTokens entries).length + 1 ≤ fuel) :
    Node.readEntries fuel acc (entryTokens entries ++ .blockEnd :: ts) =
      some (.mapping (acc ++ entryNodes entries), ts) := by
  cases entries with
  | nil =>
    obtain ⟨fuel, rfl⟩ := Nat.exists_eq_add_of_lt hfuel
    rw [entryNodes, List.append_nil]
    rfl
  | cons e entries =>
    obtain ⟨key, v⟩ := e
    simp only [entryTokens, List.length_cons, List.length_append] at hfuel
    obtain ⟨fuel, rfl⟩ : ∃ k, fuel = k + 3 := ⟨fuel - 3, by omega⟩
    have hpart : Node.readPart (fuel + 2) (v.tokens ++ (entryTokens entries ++ .blockEnd :: ts)) =
        some (v.node, entryTokens entries ++ .blockEnd :: ts) :=
      (readPart_tokens v _).trans (read_tokens v _ true (by omega))
    have hfuel' : 3 * (entryTokens entries).length + 1 ≤ fuel + 2 := by omega
    have hrest := readEntries_tokens entries (acc ++ [(.scalar ⟨key, true⟩, v.node)]) ts hfuel'
    rw [entryTokens, List.cons_append, List.cons_append, List.cons_append, List.append_assoc,
      readEntries_cons key acc hpart, hrest, entryNodes, List.append_assoc]
    rfl

end

/-! ## 5. Answers -/

theorem entries?_cons (key : String) (value : Node) {nodes : List (Node × Node)}
    {fields : List (String × Node)} (h : Node.entries? (.mapping nodes) = some fields) :
    Node.entries? (.mapping ((.scalar ⟨key, true⟩, value) :: nodes)) =
      some ((key, value) :: fields) := by
  simp only [Node.entries?, List.mapM_cons] at h ⊢
  rw [h]
  rfl

mutual

/-- **The node of a value answers as it should.** -/
theorem shows_node (v : Value) (hv : v.isBlock = true) : blocks.Shows v.node v := by
  cases v with
  | null => cases hv
  | integer n =>
    refine ⟨Scalar.isNull_toString_int n, Scalar.integer?_toString n, ?_⟩
    rintro k rfl
    exact Scalar.natural?_toString k
  | string s => exact ⟨isNull_of_isPlain hv, rfl⟩
  | mapping entries =>
    obtain ⟨fields, hfields, hall⟩ := showAll_entryNodes entries (isBlock_mapping.mp hv).2.2
    exact ⟨rfl, fields, hfields, hall⟩

theorem showAll_entryNodes (entries : List (String × Value)) (hentries : areBlocks entries = true) :
    ∃ fields, Node.entries? (.mapping (entryNodes entries)) = some fields ∧
      blocks.ShowAll fields entries := by
  cases entries with
  | nil => exact ⟨[], rfl, rfl⟩
  | cons e entries =>
    obtain ⟨key, v⟩ := e
    obtain ⟨-, hv, hentries⟩ := areBlocks_cons.mp hentries
    obtain ⟨fields, hfields, hall⟩ := showAll_entryNodes entries hentries
    refine ⟨(key, v.node) :: fields, ?_, v.node, fields, rfl, shows_node v hv, hall⟩
    exact entries?_cons key v.node hfields

end

end Value

/-- **The library is faithful.** -/
theorem faithful_blocks : blocks.Faithful := by
  intro entries hentries
  refine ⟨String.ofList (linesText (Value.entryLines 0 entries)), (Value.mapping entries).node,
    if_pos hentries, ?_, Value.shows_node _ hentries⟩
  have hread : Node.read (3 * (Value.mapping entries).tokens.length + 3) true false
      ((Value.mapping entries).tokens ++ []) = _ :=
    Value.read_tokens (.mapping entries) [] false (Nat.le_add_right _ 3)
  rw [List.append_nil] at hread
  show document? _ = _
  unfold document?
  rw [String.toList_ofList, Value.tokensOf_entryLines hentries]
  rw [Value.tokens] at hread ⊢
  simp only [Option.bind_eq_bind, Option.bind_some, hread, atEnd, if_true, Option.pure_def]
  rfl

end ValueFlow.Yaml
