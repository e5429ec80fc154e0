import ValueFlow.Yaml.Token

/-!
# YAML documents

Tokens are put together to a tree of scalars, sequences and mappings. A missing key or value is an
empty plain scalar.
-/

namespace ValueFlow.Yaml

inductive Node where
  | scalar (s : Scalar)
  | sequence (items : List Node)
  | mapping (entries : List (Node × Node))

/-- What stands for a missing key or value. -/
def Node.absent : Node := .scalar ⟨"", true⟩

namespace Node

/-- Tokens before which a key or value of a block mapping is missing. -/
def endsBlockPart : Token → Bool
  | .key | .value | .blockEnd => true
  | _ => false

/-- Tokens before which an item of a block sequence is missing. -/
def endsItem (indentless : Bool) : Token → Bool
  | .blockEntry | .blockEnd => true
  | .key | .value => indentless
  | _ => false

mutual

/-- One node. A block collection can only stand where `block` holds, and a sequence without
indentation of its own only as part of a block mapping, where `indentless` holds. -/
def read : Nat → Bool → Bool → List Token → Option (Node × List Token)
  | 0, _, _, _ => none
  | fuel + 1, block, indentless, tokens =>
    match tokens with
    | .blockEntry :: _ => if indentless then readItems fuel true [] tokens else none
    | .scalar s :: rest => some (.scalar s, rest)
    | .flowSequenceStart :: rest => readFlowItems fuel true [] rest
    | .flowMappingStart :: rest => readFlowEntries fuel true [] rest
    | .blockSequenceStart :: rest => if block then readItems fuel false [] rest else none
    | .blockMappingStart :: rest => if block then readEntries fuel [] rest else none
    | _ => none

/-- The items of a block sequence. Without indentation of its own it ends before the first token
that is no item, otherwise at its closing mark. -/
def readItems : Nat → Bool → List Node → List Token → Option (Node × List Token)
  | 0, _, _, _ => none
  | fuel + 1, indentless, items, tokens =>
    match tokens with
    | .blockEntry :: t :: rest =>
      if endsItem indentless t then readItems fuel indentless (items ++ [absent]) (t :: rest)
      else
        match read fuel true false (t :: rest) with
        | some (item, rest) => readItems fuel indentless (items ++ [item]) rest
        | none => none
    | .blockEnd :: rest =>
      some (.sequence items, if indentless then .blockEnd :: rest else rest)
    | tokens => if indentless then some (.sequence items, tokens) else none

/-- The entries of a block mapping, up to its closing mark. -/
def readEntries : Nat → List (Node × Node) → List Token → Option (Node × List Token)
  | 0, _, _ => none
  | fuel + 1, entries, tokens =>
    match tokens with
    | .blockEnd :: rest => some (.mapping entries, rest)
    | .key :: rest =>
      match readPart fuel rest with
      | none => none
      | some (k, rest) =>
        match rest with
        | .value :: rest =>
          match readPart fuel rest with
          | none => none
          | some (v, rest) => readEntries fuel (entries ++ [(k, v)]) rest
        | rest => readEntries fuel (entries ++ [(k, absent)]) rest
    | _ => none

/-- A key or a value of a block mapping. -/
def readPart : Nat → List Token → Option (Node × List Token)
  | 0, _ => none
  | fuel + 1, tokens =>
    match tokens with
    | [] => none
    | t :: rest =>
      if endsBlockPart t then some (absent, t :: rest) else read fuel true true (t :: rest)

/-- The items between square brackets. An item may be a single entry of a mapping. -/
def readFlowItems : Nat → Bool → List Node → List Token → Option (Node × List Token)
  | 0, _, _, _ => none
  | fuel + 1, first, items, tokens =>
    match tokens with
    | .flowSequenceEnd :: rest => some (.sequence items, rest)
    | tokens =>
      let tokens? := match first, tokens with
        | true, tokens => some tokens
        | false, .flowEntry :: rest => some rest
        | false, _ => none
      match tokens? with
      | none => none
      | some (.flowSequenceEnd :: rest) => some (.sequence items, rest)
      | some (.key :: rest) =>
        match readFlowPart fuel rest with
        | none => none
        | some (k, rest) =>
          match rest with
          | .value :: rest =>
            match readFlowPart fuel rest with
            | none => none
            | some (v, rest) => readFlowItems fuel false (items ++ [.mapping [(k, v)]]) rest
          | rest => readFlowItems fuel false (items ++ [.mapping [(k, absent)]]) rest
      | some tokens =>
        match read fuel false false tokens with
        | some (item, rest) => readFlowItems fuel false (items ++ [item]) rest
        | none => none

/-- The entries between curly brackets. An entry may be a key alone. -/
def readFlowEntries : Nat → Bool → List (Node × Node) → List Token → Option (Node × List Token)
  | 0, _, _, _ => none
  | fuel + 1, first, entries, tokens =>
    match tokens with
    | .flowMappingEnd :: rest => some (.mapping entries, rest)
    | tokens =>
      let tokens? := match first, tokens with
        | true, tokens => some tokens
        | false, .flowEntry :: rest => some rest
        | false, _ => none
      match tokens? with
      | none => none
      | some (.flowMappingEnd :: rest) => some (.mapping entries, rest)
      | some (.key :: rest) =>
        match readFlowPart fuel rest with
        | none => none
        | some (k, rest) =>
          match rest with
          | .value :: rest =>
            match readFlowPart fuel rest with
            | none => none
            | some (v, rest) => readFlowEntries fuel false (entries ++ [(k, v)]) rest
          | rest => readFlowEntries fuel false (entries ++ [(k, absent)]) rest
      | some tokens =>
        match read fuel false false tokens with
        | some (k, rest) => readFlowEntries fuel false (entries ++ [(k, absent)]) rest
        | none => none

/-- A key or a value between brackets. -/
def readFlowPart : Nat → List Token → Option (Node × List Token)
  | 0, _ => none
  | fuel + 1, tokens =>
    match tokens with
    | [] => none
    | t :: rest =>
      match t with
      | .value | .flowEntry | .flowMappingEnd | .flowSequenceEnd => some (absent, t :: rest)
      | _ => read fuel false false (t :: rest)

end

end Node

/-- The tokens behind the one document of a text. -/
def atEnd : List Token → Bool
  | [] => true
  | .documentEnd :: rest => atEnd rest
  | _ => false

/-- **The document of a text**; `none` if the text is malformed or holds more than one. A text
without any content is an absent node. -/
def document? (text : String) : Option Node := do
  let tokens ← tokensOf text.toList
  let fuel := 3 * tokens.length + 3
  match tokens with
  | [] => return .absent
  | .documentStart :: rest =>
    match rest with
    | [] => return .absent
    | .documentStart :: _ => none
    | .documentEnd :: rest => if atEnd rest then return .absent else none
    | rest =>
      let (node, rest) ← Node.read fuel true false rest
      if atEnd rest then return node else none
  | tokens =>
    let (node, rest) ← Node.read fuel true false tokens
    if atEnd rest then return node else none

end ValueFlow.Yaml
