import ValueFlow.Variant.Index
import ValueFlow.Work.Bag

/-!
# Settings

The settings of the solver (`SolverConfig`), named bundles of them (`Preset`), partial settings that
are laid over others (`SolverConfigPatch`), and the bounds that they must keep (`validate`,
`ConfigError`).
-/

namespace ValueFlow

/-- **What can be set.** -/
structure Settings where
  /-- how much work is done between two passes that condense cycles; none if not positive -/
  sccInterval : Int64
  indexStrategy : IndexStrategy
  bagOrder : BagOrder
  /-- how many calls a context keeps; zero keeps all -/
  callDepth : UInt64
  deriving DecidableEq, Repr

/-! ## 1. What can be wrong -/

inductive SettingsError where
  | intervalTooLarge (value : Int64)
  | depthTooLarge (value : UInt64)
  | missingVersion
  | unsupportedVersion (found : Nat)
  | unknownPreset (name : String)
  /-- the library refuses, or the text is not a settings document -/
  | malformed
  deriving DecidableEq, Repr

namespace Settings

def maxInterval : Int64 := 100000000

def maxDepth : UInt64 := 32

def supportedVersion : Nat := 1

end Settings

namespace SettingsError

def rangeMessage (field value low high hint : String) : String :=
  s!"Invalid range for field '{field}': {value} not in {low}..={high}. {hint}"

def message : SettingsError → String
  | .intervalTooLarge v =>
    rangeMessage "scc_interval" (toString v.toInt) (toString Int64.minValue.toInt)
      (toString Settings.maxInterval.toInt) "Use a non-positive value to disable the optimizer"
  | .depthTooLarge v =>
    rangeMessage "call_string_depth" (toString v.toNat) "0" (toString Settings.maxDepth.toNat)
      "Deep call strings explode the number of variants"
  | .missingVersion =>
    "Missing 'version' field in configuration file. " ++
      "Add 'version: 1' to the top of your YAML file."
  | .unsupportedVersion found =>
    s!"Unsupported configuration version {found}. " ++
      s!"Supported versions: {Settings.supportedVersion}"
  | .unknownPreset name =>
    s!"Unknown preset '{name}'. Valid presets: fast, balanced, thorough, custom"
  | .malformed => "YAML parsing error"

end SettingsError

/-! ## 2. Presets -/

inductive Preset where
  | fast
  | balanced
  | thorough
  /-- starts from the balanced settings, to be changed at will -/
  | custom
  deriving DecidableEq, Repr

namespace Preset

instance : Inhabited Preset := ⟨balanced⟩

def name : Preset → String
  | .fast => "fast"
  | .balanced => "balanced"
  | .thorough => "thorough"
  | .custom => "custom"

/-- Read a name in any mixture of capital and small letters. No letter outside ASCII has a small
form that occurs in the names. -/
def parse (s : String) : Except SettingsError Preset :=
  match String.ofList (s.toList.map Char.toLower) with
  | "fast" => .ok .fast
  | "balanced" => .ok .balanced
  | "thorough" => .ok .thorough
  | "custom" => .ok .custom
  | _ => .error (.unknownPreset s)

def settings : Preset → Settings
  | .fast => ⟨0, .memoryIntensive, .lifo, 1⟩
  | .balanced => ⟨10000, .processorIntensive, .lifo, 2⟩
  | .thorough => ⟨1000, .processorIntensive, .fifo, 3⟩
  | .custom => ⟨10000, .processorIntensive, .lifo, 2⟩

end Preset

/-! ## 3. Settings -/

/-- Settings of which only some are given. -/
structure SettingsPatch where
  sccInterval : Option Int64 := none
  indexStrategy : Option IndexStrategy := none
  bagOrder : Option BagOrder := none
  callDepth : Option UInt64 := none
  deriving DecidableEq, Repr

namespace Settings

instance : Inhabited Settings := ⟨Preset.settings default⟩

/-- Lay the given settings over the others. -/
def patch (s : Settings) (p : SettingsPatch) : Settings where
  sccInterval := p.sccInterval.getD s.sccInterval
  indexStrategy := p.indexStrategy.getD s.indexStrategy
  bagOrder := p.bagOrder.getD s.bagOrder
  callDepth := p.callDepth.getD s.callDepth

/-- **The bounds**: first of the interval, then of the depth. -/
def validate (s : Settings) : Except SettingsError Unit :=
  if maxInterval < s.sccInterval then .error (.intervalTooLarge s.sccInterval)
  else if maxDepth < s.callDepth then .error (.depthTooLarge s.callDepth)
  else .ok ()

/-- Whether cycles are condensed at all. -/
def condenses (s : Settings) : Bool := 0 < s.sccInterval

end Settings

end ValueFlow
