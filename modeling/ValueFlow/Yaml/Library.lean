/-!
# What is asked of a YAML library

Settings are written and read by a library for YAML. What it does is no part of this development:
here is what is asked of one, and nothing is assumed but what is said in `Library.Faithful`. A
document is read to a tree of nodes, whose type is the library's own affair. A node answers to the
requests that reading settings makes of it.

* `Value`: what is handed to a library to be printed;
* `Value.isBlock`: block mappings of plain strings and decimal integers;
* `Library`, `Library.Shows`: what can be asked, and what a node answers if it stands for a value;
* `Library.Faithful`: what is printed of a block mapping is read as it.
-/

namespace ValueFlow.Yaml

/-! ## 1. Values -/

/-- **What can be printed.** -/
inductive Value where
  | null
  | integer (n : Int)
  | string (s : String)
  | mapping (entries : List (String × Value))

/-- Words that stand for something else than a string, in any mixture of capital and small
letters. -/
def reserved : List String := ["null", "true", "false", "yes", "no", "on", "off", "y", "n"]

def isWordChar (c : Char) : Bool := c.isAlphanum || c == '_'

/-- **A plain string**: letters, digits and underscores after a first letter, not too long for a key
and not reserved. -/
def isPlain (s : String) : Bool :=
  s.toList.head?.any Char.isAlpha && s.toList.all isWordChar && s.toList.length ≤ 128 &&
    !reserved.contains (String.ofList (s.toList.map Char.toLower))

/-- An integer that fits 64 bits, with or without a sign. -/
def isDecimal (n : Int) : Bool := Int64.minValue.toInt ≤ n && n < UInt64.size

namespace Value

mutual

/-- **Block mappings** with plain keys, none of them twice, and what may stand in them. -/
def isBlock : Value → Bool
  | .null => false
  | .integer n => isDecimal n
  | .string s => isPlain s
  | .mapping entries =>
    !entries.isEmpty && decide (entries.map Prod.fst).Nodup && areBlocks entries

def areBlocks : List (String × Value) → Bool
  | [] => true
  | (key, v) :: entries => isPlain key && v.isBlock && areBlocks entries

end

end Value

/-! ## 2. Libraries -/

/-- **A library for YAML.** -/
structure Library where
  Node : Type
  /-- the document that a text holds -/
  document? : String → Option Node
  /-- whether a node stands for nothing -/
  isNull : Node → Bool
  /-- the entries of a mapping by the names of their keys, in their order -/
  entries? : Node → Option (List (String × Node))
  string? : Node → Option String
  /-- a number that may have a sign -/
  integer? : Node → Option Int
  /-- a number without a sign -/
  natural? : Node → Option Nat
  print? : Value → Option String

namespace Library

variable (lib : Library)

mutual

/-- **A node answers as it should** if it stands for a value. -/
def Shows (node : lib.Node) : Value → Prop
  | .null => lib.isNull node = true
  | .integer n => lib.isNull node = false ∧ lib.integer? node = some n ∧
      ∀ k : Nat, n = k → lib.natural? node = some k
  | .string s => lib.isNull node = false ∧ lib.string? node = some s
  | .mapping entries => lib.isNull node = false ∧
      ∃ fields, lib.entries? node = some fields ∧ ShowAll fields entries

/-- The same entries by entry, under the same names. -/
def ShowAll : List (String × lib.Node) → List (String × Value) → Prop
  | fields, [] => fields = []
  | fields, (key, v) :: entries =>
    ∃ node rest, fields = (key, node) :: rest ∧ Shows node v ∧ ShowAll rest entries

end

/-- **A library that prints and reads faithfully** block mappings, plain strings and decimal
integers. -/
def Faithful : Prop :=
  ∀ entries, (Value.mapping entries).isBlock = true → ∃ text node,
    lib.print? (.mapping entries) = some text ∧ lib.document? text = some node ∧
      lib.Shows node (.mapping entries)

end Library

end ValueFlow.Yaml
