import ValueFlow.Yaml.Scalar

/-!
# Tokens of a YAML text

A text is cut into scalars and marks. Indentation becomes visible as marks that open and close
block collections: a deeper column opens one, a shallower one closes it.

A scalar can turn out to be a key only when the colon behind it is found. So the place of a
possible key is remembered, one for each level of brackets, and the mark is put there afterwards.
Where a block mapping goes on, a line has to have a key: such a place is `required`, and giving it
up makes the text malformed.

References, tags, directives, block texts and explicit keys are not part of the format read here.
-/

namespace ValueFlow.Yaml

inductive Token where
  | documentStart
  | documentEnd
  | blockSequenceStart
  | blockMappingStart
  | blockEnd
  | flowSequenceStart
  | flowSequenceEnd
  | flowMappingStart
  | flowMappingEnd
  | blockEntry
  | flowEntry
  | key
  | value
  | scalar (s : Scalar)
  deriving DecidableEq, Repr

/-- A place that may turn out to be a key. -/
structure KeyPlace where
  /-- the number of tokens before it -/
  position : Nat
  required : Bool
  index : Nat
  line : Nat
  column : Nat
  deriving Repr

/-- **What is known while a text is cut up.** -/
structure Cutting where
  cursor : Cursor
  tokens : List Token := []
  /-- the column of the innermost block collection -/
  indent : Option Nat := none
  /-- the columns of the block collections around it -/
  outer : List (Option Nat) := []
  /-- whether a key may start here -/
  keyAllowed : Bool := true
  /-- the possible key at this level of brackets -/
  place : Option KeyPlace := none
  /-- the possible keys at the levels around it -/
  places : List (Option KeyPlace) := []

namespace Cutting

/-- Whether the cursor is inside brackets. -/
def inFlow (s : Cutting) : Bool := !s.places.isEmpty

def emit (s : Cutting) (t : Token) : Cutting := { s with tokens := s.tokens ++ [t] }

/-- Go on by so many characters. -/
def skip (s : Cutting) (n : Nat) : Cutting := { s with cursor := s.cursor.skip n }

/-! ## 1. Keys and columns -/

/-- Give up the possible key at this level. -/
def dropPlace (s : Cutting) : Option Cutting :=
  match s.place with
  | some p => if p.required then none else some { s with place := none }
  | none => some s

/-- Remember this place as a possible key. -/
def savePlace (s : Cutting) : Option Cutting :=
  if s.keyAllowed then do
    let s ← s.dropPlace
    let c := s.cursor
    let place : KeyPlace :=
      { position := s.tokens.length
        required := !s.inFlow && s.indent == some c.column
        index := c.index, line := c.line, column := c.column }
    return { s with place }
  else some s

/-- Open a block collection if the column is deeper than the innermost one; its mark is put at
`position`. -/
def openBlock (s : Cutting) (column position : Nat) (t : Token) : Cutting :=
  let deeper := match s.indent with
    | none => true
    | some i => i < column
  if !s.inFlow && deeper then
    { s with
      tokens := s.tokens.take position ++ t :: s.tokens.drop position
      indent := some column, outer := s.indent :: s.outer }
  else s

/-- Close the block collections that are deeper than a column, `outer` being those around the
innermost one. -/
def closeFrom (column : Option Nat) :
    List (Option Nat) → Option Nat → List Token → Option Nat × List (Option Nat) × List Token
  | [], indent, tokens => (indent, [], tokens)
  | i :: outer, indent, tokens =>
    let deeper := match indent, column with
      | none, _ => false
      | some _, none => true
      | some i, some c => c < i
    if deeper then closeFrom column outer i (tokens ++ [.blockEnd]) else (indent, i :: outer, tokens)

/-- Close the block collections that are deeper than a column; all of them for `none`. -/
def closeBlocks (s : Cutting) (column : Option Nat) : Cutting :=
  if s.inFlow then s
  else
    let (indent, outer, tokens) := closeFrom column s.outer s.indent s.tokens
    { s with indent, outer, tokens }

/-! ## 2. Between tokens -/

/-- Go on to the next token, over blanks, comments and line breaks. Tabs count as blanks only where
they cannot be taken for indentation, and a new line may start a key unless it is inside
brackets. A byte order mark may stand at the start of any line, where it counts as a column. -/
def toNextToken : Nat → Cutting → Cutting
  | 0, s => s
  | fuel + 1, s =>
    let c := s.cursor
    let c := if c.column == 0 && c.rest.head? == some byteOrderMark then c.skip 1 else c
    let c := c.skipWhile fun ch => ch == ' ' || ((s.inFlow || !s.keyAllowed) && ch == '\t')
    let c := if c.rest.head? == some '#' then c.skipWhile fun ch => !isBreak ch else c
    match c.skipBreak with
    | some (_, c) => toNextToken fuel { s with cursor := c, keyAllowed := s.keyAllowed || !s.inFlow }
    | none => { s with cursor := c }

/-! ## 3. Single tokens -/

/-- The longest key, in characters. -/
def maxKeyLength : Nat := 1024

/-- Whether a colon at the cursor makes the place a key. -/
def fits (p : KeyPlace) (c : Cursor) : Bool :=
  p.line == c.line && c.index ≤ p.index + maxKeyLength

def cutDocumentMark (s : Cutting) (t : Token) : Option Cutting := do
  let s ← (s.closeBlocks none).dropPlace
  return ({ s with keyAllowed := false }.emit t).skip 3

def cutFlowStart (s : Cutting) (t : Token) : Option Cutting := do
  let s ← s.savePlace
  return ({ s with place := none, places := s.place :: s.places, keyAllowed := true }.emit t).skip 1

def cutFlowEnd (s : Cutting) (t : Token) : Option Cutting := do
  let s ← s.dropPlace
  let s := match s.places with
    | [] => s
    | p :: places => { s with place := p, places }
  return ({ s with keyAllowed := false }.emit t).skip 1

def cutFlowEntry (s : Cutting) : Option Cutting := do
  let s ← s.dropPlace
  return ({ s with keyAllowed := true }.emit .flowEntry).skip 1

def cutBlockEntry (s : Cutting) : Option Cutting := do
  if !s.inFlow && !s.keyAllowed then none
  let s := s.openBlock s.cursor.column s.tokens.length .blockSequenceStart
  let s ← s.dropPlace
  return ({ s with keyAllowed := true }.emit .blockEntry).skip 1

/-- A colon behind a key. -/
def cutKeyed (s : Cutting) (p : KeyPlace) : Cutting :=
  let tokens := s.tokens.take p.position ++ .key :: s.tokens.drop p.position
  let s := { s with tokens }.openBlock p.column p.position .blockMappingStart
  ({ s with place := none, keyAllowed := false }.emit .value).skip 1

/-- A colon that no key stands before. -/
def cutLone (s : Cutting) : Option Cutting :=
  if s.inFlow then some (({ s with keyAllowed := false }.emit .value).skip 1)
  else if s.keyAllowed then
    some (((s.openBlock s.cursor.column s.tokens.length .blockMappingStart).emit .value).skip 1)
  else none

def cutValue (s : Cutting) : Option Cutting :=
  match s.place with
  | none => s.cutLone
  | some p =>
    if fits p s.cursor then some (s.cutKeyed p)
    else if p.required then none
    else { s with place := none }.cutLone

def cutQuoted (s : Cutting) (quote : Char) : Option Cutting := do
  let s ← s.savePlace
  let c := s.cursor.skip 1
  let (text, cursor) ← readQuoted quote (c.rest.length + 1) [] c
  return { s with cursor, keyAllowed := false }.emit (.scalar ⟨String.ofList text, false⟩)

def cutPlain (s : Cutting) : Option Cutting := do
  let s ← s.savePlace
  let indent := match s.indent with
    | none => 0
    | some i => i + 1
  let (text, broken, cursor) ←
    readPlain s.inFlow indent (2 * s.cursor.rest.length + 1) [] {} s.cursor
  return { s with cursor, keyAllowed := broken }.emit (.scalar ⟨String.ofList text, true⟩)

/-- Whether a plain scalar can start with the character. -/
def startsPlain (inFlow : Bool) (c : Char) (rest : List Char) : Bool :=
  let indicators : List Char :=
    ['-', '?', ':', ',', '[', ']', '\x7b', '\x7d', '#', '&', '*', '!', '|', '>', singleQuote,
      doubleQuote, '%', '@', '\x60']
  !(indicators.contains c || isBlank c || isBreak c) ||
    (c == '-' && !(rest.head?.any isBlank)) ||
    (!inFlow && (c == '?' || c == ':') && !atGap rest)

/-! ## 4. The whole text -/

/-- The next token, at a cursor that has reached it. -/
def cutToken (s : Cutting) (c : Char) (rest : List Char) : Option Cutting :=
  if s.cursor.column == 0 && c == '%' then none
  else if s.cursor.atDocumentMark then
    s.cutDocumentMark (if c == '-' then .documentStart else .documentEnd)
  else if c == '[' then s.cutFlowStart .flowSequenceStart
  else if c == '\x7b' then s.cutFlowStart .flowMappingStart
  else if c == ']' then s.cutFlowEnd .flowSequenceEnd
  else if c == '\x7d' then s.cutFlowEnd .flowMappingEnd
  else if c == ',' then s.cutFlowEntry
  else if c == '-' && atGap rest then s.cutBlockEntry
  else if c == '?' && (s.inFlow || atGap rest) then none
  else if c == ':' && (s.inFlow || atGap rest) then s.cutValue
  else if c == singleQuote || c == doubleQuote then s.cutQuoted c
  else if startsPlain s.inFlow c rest then s.cutPlain
  else none

/-- Cut up the rest of the text. Every token takes a character at least. -/
def cutAll : Nat → Cutting → Option (List Token)
  | 0, _ => none
  | fuel + 1, s =>
    let s := toNextToken (s.cursor.rest.length + 1) s
    let s := s.closeBlocks (some s.cursor.column)
    match s.cursor.rest with
    | [] => (s.closeBlocks none).dropPlace.map Cutting.tokens
    | c :: rest =>
      match s.cutToken c rest with
      | none => none
      | some s => cutAll fuel s

end Cutting

/-- **The tokens of a text**; `none` if it cannot be cut up. -/
def tokensOf (text : List Char) : Option (List Token) :=
  if text.all isText then Cutting.cutAll (text.length + 1) { cursor := { rest := text } } else none

end ValueFlow.Yaml
