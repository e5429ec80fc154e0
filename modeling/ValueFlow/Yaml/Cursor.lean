/-!
# Places in a YAML text

The reader of YAML in this directory serves the runs of the library `blocks`. Statements about
settings are about any library; see `Library`.

Classes of characters, and a cursor: the text that is still to be read, with the place it starts
at. The place counts characters, lines and columns; a carriage return with a line feed is one line
break.
-/

namespace ValueFlow.Yaml

/-! ## 1. Characters -/

def isBlank (c : Char) : Bool := c == ' ' || c == '\t'

def isBreak (c : Char) : Bool :=
  c == '\n' || c == '\r' || c == '\x85' || c == '\u2028' || c == '\u2029'

def byteOrderMark : Char := '\ufeff'

/-- Control characters other than tab and line breaks are not text. -/
def isText (c : Char) : Bool :=
  let n := c.toNat
  c == '\t' || c == '\n' || c == '\r' || (0x20 ≤ n && n ≤ 0x7e) || n == 0x85 ||
    (0xa0 ≤ n && n ≤ 0xd7ff) || (0xe000 ≤ n && n ≤ 0xfffd) || 0x10000 ≤ n

/-- Blank, line break or end of the text. -/
def atGap : List Char → Bool
  | [] => true
  | c :: _ => isBlank c || isBreak c

/-- The value of a digit in a base up to sixteen. -/
def digit? (base : Nat) (c : Char) : Option Nat :=
  let n := c.toNat
  let d :=
    if 0x30 ≤ n && n ≤ 0x39 then some (n - 0x30)
    else if 0x61 ≤ n && n ≤ 0x66 then some (n - 0x61 + 10)
    else if 0x41 ≤ n && n ≤ 0x46 then some (n - 0x41 + 10)
    else none
  d.bind fun d => if d < base then some d else none

/-- The number that a sequence of digits stands for; there has to be one at least. -/
def number? (base : Nat) (digits : List Char) : Option Nat :=
  match digits with
  | [] => none
  | digits => digits.foldl (fun n c => do return (← n) * base + (← digit? base c)) (some 0)

/-! ## 2. The cursor -/

structure Cursor where
  rest : List Char
  index : Nat := 0
  line : Nat := 0
  column : Nat := 0
  deriving Repr

namespace Cursor

/-- Go on by so many characters of the same line. -/
def skip (c : Cursor) (n : Nat) : Cursor :=
  { c with rest := c.rest.drop n, index := c.index + n, column := c.column + n }

/-- Go on over the characters of the line that satisfy `p`. -/
def skipWhile (c : Cursor) (p : Char → Bool) : Cursor :=
  c.skip (c.rest.takeWhile p).length

/-- Go on over one line break; answers the character that it counts as. -/
def skipBreak (c : Cursor) : Option (Char × Cursor) :=
  let next (ch : Char) (n : Nat) : Char × Cursor :=
    (ch, { rest := c.rest.drop n, index := c.index + n, line := c.line + 1, column := 0 })
  match c.rest with
  | '\r' :: '\n' :: _ => some (next '\n' 2)
  | '\u2028' :: _ => some (next '\u2028' 1)
  | '\u2029' :: _ => some (next '\u2029' 1)
  | ch :: _ => if isBreak ch then some (next '\n' 1) else none
  | [] => none

/-- Whether the line starts with one of the marks that divide documents. -/
def atDocumentMark (c : Cursor) : Bool :=
  c.column == 0 &&
    match c.rest with
    | '-' :: '-' :: '-' :: rest => atGap rest
    | '.' :: '.' :: '.' :: rest => atGap rest
    | _ => false

end Cursor

/-! ## 3. Gaps -/

/-- **The space between two words of a scalar**: blanks on one line, or line breaks. -/
structure Gap where
  blanks : List Char := []
  /-- whether there is a line break, written or escaped -/
  broken : Bool := false
  first : Option Char := none
  more : List Char := []
  deriving Repr

namespace Gap

/-- What a gap stands for: blanks stand for themselves, a single line break for a blank, and more
of them for all but the first. -/
def text (g : Gap) : List Char :=
  if g.broken then
    match g.first with
    | some '\n' => if g.more.isEmpty then [' '] else g.more
    | some c => c :: g.more
    | none => g.more
  else g.blanks

/-- Read on until something else than blanks and line breaks. A tab is refused where the line has
not reached the column `indent` yet. -/
def read (indent : Nat) : Nat → Gap → Cursor → Option (Gap × Cursor)
  | 0, g, c => some (g, c)
  | fuel + 1, g, c =>
    match c.rest with
    | [] => some (g, c)
    | ch :: _ =>
      if isBlank ch then
        if g.broken then
          if c.column < indent && ch == '\t' then none else read indent fuel g (c.skip 1)
        else read indent fuel { g with blanks := g.blanks ++ [ch] } (c.skip 1)
      else
        match c.skipBreak with
        | none => some (g, c)
        | some (b, c) =>
          if g.broken then read indent fuel { g with more := g.more ++ [b] } c
          else read indent fuel { g with blanks := [], broken := true, first := some b } c

end Gap

end ValueFlow.Yaml
