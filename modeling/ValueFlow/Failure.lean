import ValueFlow.Settings.Basic
import ValueFlow.Usage

/-!
# Failures

Why a request to the engine or a run of the analysis fails (`FlowError`).
-/

namespace ValueFlow

/-- A collaborator that can be missing. -/
inductive Dependency where
  | semantics
  | tokenManager
  | environment
  deriving DecidableEq, Repr

inductive Failure where
  /-- an analysis was asked for without a root -/
  | noRoots
  | unconfigured (missing : Dependency)
  | usage (e : UsageError)
  /-- a collaborator reports a failure of its own -/
  | collaborator (text : String)
  | settings (e : SettingsError)
  deriving DecidableEq, Repr

def Dependency.message : Dependency → String
  | .semantics => "no entity processor installed"
  | .tokenManager => "no token manager installed"
  | .environment => "no environment installed"

def Failure.message : Failure → String
  | .noRoots => "Invalid argument: analyze requires at least one root entity"
  | .unconfigured d => s!"Unconfigured dependency: {d.message}"
  | .usage e => s!"Invalid usage: {e.message}"
  | .collaborator text => s!"Processor error: {text}"
  | .settings e => s!"Configuration error: {e.message}"

end ValueFlow
