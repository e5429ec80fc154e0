import ValueFlow.Yaml.Cursor

/-!
# Scalars

The three ways to write a scalar, plain, in single quotes and in double quotes, and what plain
scalars stand for where a number or nothing is asked for.
-/

namespace ValueFlow.Yaml

/-- **A scalar**: its text, and whether it was written without quotes. -/
structure Scalar where
  text : String
  plain : Bool
  deriving DecidableEq, Repr, Inhabited

/-! ## 1. Reading -/

def singleQuote : Char := '\x27'

def doubleQuote : Char := '\x22'

def backslash : Char := '\x5c'

/-- What an escape letter stands for; `inr` asks for so many hexadecimal digits. -/
def escaped? (c : Char) : Option (Char ⊕ Nat) :=
  match c with
  | '0' => some (.inl '\x00')
  | 'a' => some (.inl '\x07')
  | 'b' => some (.inl '\x08')
  | 't' => some (.inl '\t')
  | '\t' => some (.inl '\t')
  | 'n' => some (.inl '\n')
  | 'v' => some (.inl '\x0b')
  | 'f' => some (.inl '\x0c')
  | 'r' => some (.inl '\r')
  | 'e' => some (.inl '\x1b')
  | ' ' => some (.inl ' ')
  | '/' => some (.inl '/')
  | 'N' => some (.inl '\x85')
  | '_' => some (.inl '\xa0')
  | 'L' => some (.inl '\u2028')
  | 'P' => some (.inl '\u2029')
  | 'x' => some (.inr 2)
  | 'u' => some (.inr 4)
  | 'U' => some (.inr 8)
  | c => if c == doubleQuote || c == backslash then some (.inl c) else none

/-- The character with a code, unless the code is none. -/
def charOf? (code : Nat) : Option Char :=
  if code.isValidChar then some (Char.ofNat code) else none

/-- The escape after a backslash: the character, and how many characters it takes. -/
def readEscape : List Char → Option (Char × Nat)
  | [] => none
  | c :: rest =>
    match escaped? c with
    | none => none
    | some (.inl ch) => some (ch, 1)
    | some (.inr n) =>
      if rest.length < n then none
      else do
        let code ← number? 16 (rest.take n)
        let ch ← charOf? code
        return (ch, n + 1)

/-- Read a quoted scalar from behind its first quote. -/
def readQuoted (quote : Char) : Nat → List Char → Cursor → Option (List Char × Cursor)
  | 0, _, _ => none
  | fuel + 1, text, c =>
    if c.atDocumentMark then none
    else
      match c.rest with
      | [] => none
      | ch :: rest =>
        if isBlank ch || isBreak ch then do
          let (gap, c) ← Gap.read 0 c.rest.length {} c
          readQuoted quote fuel (text ++ gap.text) c
        else if ch == quote then
          if quote == singleQuote && rest.head? == some singleQuote then
            readQuoted quote fuel (text ++ [ch]) (c.skip 2)
          else some (text, c.skip 1)
        else if quote == doubleQuote && ch == backslash then
          match (c.skip 1).skipBreak with
          | some (_, c) => do
            let (gap, c) ← Gap.read 0 c.rest.length { broken := true } c
            readQuoted quote fuel (text ++ gap.text) c
          | none => do
            let (ch, n) ← readEscape rest
            readQuoted quote fuel (text ++ [ch]) (c.skip (n + 1))
        else readQuoted quote fuel (text ++ [ch]) (c.skip 1)

/-- Whether the character ends a plain scalar inside brackets. -/
def isFlowMark (c : Char) : Bool :=
  c == ',' || c == '[' || c == ']' || c == '\x7b' || c == '\x7d'

/-- Read a plain scalar. It may go on over several lines as long as they reach the column `indent`;
answers also whether the cursor was left behind a line break. -/
def readPlain (inFlow : Bool) (indent : Nat) :
    Nat → List Char → Gap → Cursor → Option (List Char × Bool × Cursor)
  | 0, _, _, _ => none
  | fuel + 1, text, gap, c =>
    let stop := some (text, gap.broken, c)
    match c.rest with
    | [] => stop
    | ch :: rest =>
      let afterGap := gap.broken || !gap.blanks.isEmpty
      if c.atDocumentMark || (afterGap && ch == '#') then stop
      else if isBlank ch || isBreak ch then do
        let (gap, c) ← Gap.read indent c.rest.length {} c
        if !inFlow && c.column < indent then some (text, gap.broken, c)
        else readPlain inFlow indent fuel text gap c
      else if inFlow && ch == ':' && (rest.head?.any fun n => isFlowMark n || n == '?') then none
      else if (ch == ':' && atGap rest) || (inFlow && isFlowMark ch) then stop
      else readPlain inFlow indent fuel (text ++ gap.text ++ [ch]) {} (c.skip 1)

/-! ## 2. Meaning -/

namespace Scalar

/-- Whether the scalar stands for nothing. -/
def isNull (s : Scalar) : Bool :=
  s.plain && (s.text == "" || s.text == "~" || s.text == "null" || s.text == "Null" ||
    s.text == "NULL")

/-- A decimal number with a zero in front of other digits is not read as a number. -/
def hasLeadingZero (cs : List Char) : Bool :=
  let cs := match cs with
    | '-' :: cs => cs
    | '+' :: cs => cs
    | cs => cs
  match cs with
  | '0' :: c :: cs => (c :: cs).all Char.isDigit
  | _ => false

def startsWithSign : List Char → Bool
  | '+' :: _ => true
  | '-' :: _ => true
  | _ => false

/-- A number with the mark of its base in front. -/
def basedNumber? : List Char → Option Nat
  | '0' :: 'x' :: cs => number? 16 cs
  | '0' :: 'o' :: cs => number? 8 cs
  | '0' :: 'b' :: cs => number? 2 cs
  | _ => none

/-- A number without a minus sign. -/
def unsigned? (cs : List Char) : Option Nat :=
  let unsigned := match cs with
    | '+' :: cs => cs
    | cs => cs
  match basedNumber? unsigned with
  | some n => some n
  | none => if startsWithSign unsigned || hasLeadingZero cs then none else number? 10 unsigned

/-- A number that may have a minus sign. -/
def signed? (cs : List Char) : Option Int :=
  match cs with
  | '-' :: rest =>
    match basedNumber? rest with
    | some n => some (-n)
    | none => if hasLeadingZero cs then none else (number? 10 rest).map fun n => -(n : Int)
  | _ => (unsigned? cs).map fun n => (n : Int)

/-- A number without a minus sign, written without quotes. -/
def natural? (s : Scalar) : Option Nat := if s.plain then unsigned? s.text.toList else none

/-- A number that may have a minus sign, written without quotes. -/
def integer? (s : Scalar) : Option Int := if s.plain then signed? s.text.toList else none

end Scalar

end ValueFlow.Yaml
