import ValueFlow.Yaml.Library
import ValueFlow.Yaml.Node

/-!
# A library for blocks

A library that prints block mappings, one line for each entry, and reads documents by the reader of
this directory. It is one library among others, made for runs: no statement about settings depends
on it. It prints nothing but block mappings of plain strings and decimal integers.
-/

namespace ValueFlow.Yaml

/-! ## 1. Lines -/

/-- A line `key: value` or `key:`. -/
structure Line where
  indent : Nat
  key : String
  value : Option String

namespace Line

def valueText (l : Line) : List Char :=
  match l.value with
  | none => []
  | some v => ' ' :: v.toList

def chars (l : Line) : List Char :=
  List.replicate l.indent ' ' ++ (l.key.toList ++ ':' :: (l.valueText ++ ['\n']))

end Line

def linesText (ls : List Line) : List Char := ls.flatMap Line.chars

namespace Value

mutual

/-- The lines of an entry. The entries of a mapping stand below its key, indented by two. -/
def lines (indent : Nat) (key : String) : Value → List Line
  | .null => [⟨indent, key, some "null"⟩]
  | .integer n => [⟨indent, key, some (toString n)⟩]
  | .string s => [⟨indent, key, some s⟩]
  | .mapping entries => ⟨indent, key, none⟩ :: entryLines (indent + 2) entries

def entryLines (indent : Nat) : List (String × Value) → List Line
  | [] => []
  | (key, v) :: entries => v.lines indent key ++ entryLines indent entries

end

/-- **Print a block mapping.** -/
def print? : Value → Option String
  | .mapping entries =>
    if (mapping entries).isBlock then some (String.ofList (linesText (entryLines 0 entries)))
    else none
  | _ => none

end Value

/-! ## 2. The library -/

namespace Node

def scalar? : Node → Option Scalar
  | .scalar s => some s
  | _ => none

/-- The entries of a mapping under the names of their keys; an absent node has none. -/
def entries? : Node → Option (List (String × Node))
  | .mapping entries => entries.mapM fun e => e.1.scalar?.map fun s => (s.text, e.2)
  | .scalar s => if s.plain && s.text == "" then some [] else none
  | .sequence _ => none

end Node

/-- **The library.** -/
def blocks : Library where
  Node := Node
  document? := document?
  isNull node := node.scalar?.any Scalar.isNull
  entries? := Node.entries?
  string? node := node.scalar?.map Scalar.text
  integer? node := node.scalar?.bind Scalar.integer?
  natural? node := node.scalar?.bind Scalar.natural?
  print? := Value.print?

end ValueFlow.Yaml
