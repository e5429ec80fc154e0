import ValueFlow.Settings.Basic
import ValueFlow.Yaml.Library

/-!
# Settings as a YAML document

A settings document (`SolverConfigFile`) is a mapping with a version, the name of a preset, and a
mapping of settings that are laid over the preset (`SolverConfigPatch`). Every entry may be missing
or null; unknown and repeated entries are refused. A document that reads well is then checked, in
this order: the version is there, it is supported, the preset is known, the settings keep their
bounds.

Texts are read and printed by a library, which is a parameter throughout.

* `SettingsDocument.value`, `SettingsDocument.ofNode?`: a document as it is handed to the library to
  be printed, and as it is found in a node that the library has read;
* `Settings.parse` (`from_yaml_str`): the settings that a text asks for, or the first thing that is
  wrong with it;
* `Settings.render` (`to_yaml_string`): settings as a text that asks for exactly them.
-/

namespace ValueFlow

open Yaml (Library Value)

/-! ## 1. Names -/

def IndexStrategy.name : IndexStrategy → String
  | .memoryIntensive => "memory_intensive"
  | .processorIntensive => "processor_intensive"

def IndexStrategy.ofName? : String → Option IndexStrategy
  | "memory_intensive" => some .memoryIntensive
  | "processor_intensive" => some .processorIntensive
  | _ => none

def BagOrder.name : BagOrder → String
  | .lifo => "lifo"
  | .fifo => "fifo"

def BagOrder.ofName? : String → Option BagOrder
  | "lifo" => some .lifo
  | "fifo" => some .fifo
  | _ => none

/-! ## 2. Documents -/

/-- **What a settings document says.** -/
structure SettingsDocument where
  version : Option Nat
  preset : Option String
  solver : Option SettingsPatch
  deriving DecidableEq, Repr

/-- All of the settings, as a patch. -/
def SettingsPatch.ofSettings (s : Settings) : SettingsPatch where
  sccInterval := some s.sccInterval
  indexStrategy := some s.indexStrategy
  bagOrder := some s.bagOrder
  callDepth := some s.callDepth

/-- The settings that a document asks for. -/
def SettingsDocument.settings (d : SettingsDocument) : Except SettingsError Settings :=
  match d.version with
  | none => .error .missingVersion
  | some v =>
    if v ≠ Settings.supportedVersion then .error (.unsupportedVersion v)
    else do
      let preset ← match d.preset with
        | some name => Preset.parse name
        | none => .ok default
      let s := match d.solver with
        | some p => preset.settings.patch p
        | none => preset.settings
      s.validate
      return s

/-- The document that asks for the given settings, all of them over the custom preset. -/
def SettingsDocument.ofSettings (s : Settings) : SettingsDocument where
  version := some 1
  preset := some Preset.custom.name
  solver := some (.ofSettings s)

/-! ## 3. Writing -/

/-- An entry that is left out if there is nothing to write. -/
def optionalEntry {α : Type} (name : String) (write : α → Value) :
    Option α → List (String × Value)
  | some a => [(name, write a)]
  | none => []

def SettingsPatch.entries (p : SettingsPatch) : List (String × Value) :=
  optionalEntry "scc_interval" (fun n => .integer n.toInt) p.sccInterval ++
    optionalEntry "index_strategy" (fun s => .string s.name) p.indexStrategy ++
    optionalEntry "bag_order" (fun o => .string o.name) p.bagOrder ++
    optionalEntry "call_string_depth" (fun n => .integer n.toNat) p.callDepth

def SettingsPatch.value (p : SettingsPatch) : Value := .mapping p.entries

/-- The version of a document, which is always written. -/
def versionValue : Option Nat → Value
  | some v => .integer v
  | none => .null

def SettingsDocument.entries (d : SettingsDocument) : List (String × Value) :=
  ("version", versionValue d.version) ::
    (optionalEntry "preset" .string d.preset ++ optionalEntry "solver" SettingsPatch.value d.solver)

/-- **A document as a value.** -/
def SettingsDocument.value (d : SettingsDocument) : Value := .mapping d.entries

/-! ## 4. Reading -/

section Reading

variable (lib : Library)

/-- The entries of a mapping, if every key is one of the allowed ones and none comes twice. -/
def knownFields (allowed : List String) (node : lib.Node) : Option (List (String × lib.Node)) := do
  let fields ← lib.entries? node
  let names := fields.map Prod.fst
  if names.all allowed.contains && decide names.Nodup then return fields else none

/-- An entry that may be missing or null; `read` refuses what it cannot use. -/
def optionalField {α : Type} (fields : List (String × lib.Node)) (name : String)
    (read : lib.Node → Option α) : Option (Option α) :=
  match fields.lookup name with
  | none => some none
  | some node => if lib.isNull node then some none else (read node).map some

def readNatBelow (bound : Nat) (node : lib.Node) : Option Nat :=
  (lib.natural? node).filter (· < bound)

def readInt64 (node : lib.Node) : Option Int64 :=
  (lib.integer? node).bind fun n =>
    if Int64.minValue.toInt ≤ n && n ≤ Int64.maxValue.toInt then some (Int64.ofInt n) else none

def SettingsPatch.ofNode? (node : lib.Node) : Option SettingsPatch := do
  let fields ← knownFields lib
    ["scc_interval", "index_strategy", "bag_order", "call_string_depth"] node
  let sccInterval ← optionalField lib fields "scc_interval" (readInt64 lib)
  let indexStrategy ← optionalField lib fields "index_strategy" fun node =>
    (lib.string? node).bind IndexStrategy.ofName?
  let bagOrder ← optionalField lib fields "bag_order" fun node =>
    (lib.string? node).bind BagOrder.ofName?
  let callDepth ← optionalField lib fields "call_string_depth" fun node =>
    (readNatBelow lib UInt64.size node).map UInt64.ofNat
  return { sccInterval, indexStrategy, bagOrder, callDepth }

def SettingsDocument.ofNode? (node : lib.Node) : Option SettingsDocument := do
  let fields ← knownFields lib ["version", "preset", "solver"] node
  let version ← optionalField lib fields "version" (readNatBelow lib UInt32.size)
  let preset ← optionalField lib fields "preset" lib.string?
  let solver ← optionalField lib fields "solver" (SettingsPatch.ofNode? lib)
  return { version, preset, solver }

end Reading

namespace Settings

/-- **Read settings from a text.** -/
def parse (lib : Library) (text : String) : Except SettingsError Settings :=
  match (lib.document? text).bind (SettingsDocument.ofNode? lib) with
  | none => .error .malformed
  | some d => d.settings

/-- **Write settings as a text**, all of them over the custom preset. -/
def render (lib : Library) (s : Settings) : Except SettingsError String :=
  match lib.print? (SettingsDocument.ofSettings s).value with
  | none => .error .malformed
  | some text => .ok text

end Settings

end ValueFlow
