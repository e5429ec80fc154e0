import ValueFlow.Failure
import ValueFlow.Flow.Condense
import ValueFlow.Stats
import ValueFlow.Variant.Table

/-!
# What collaborators do

The analysed language is known only to collaborators: they discover what an entity contains, react
to tokens that reach a node, and run work that was postponed. Whatever they do is a sequence of
requests to the engine, each of which may depend on the answers to those before. A `Routine` is
such a sequence, so a statement about all routines is one about all collaborators that keep to the
requests there are. These are the methods that `FlowEngine` offers to collaborators, `drain_round`,
`optimize`, `maybe_optimize` and `reset` included. There is none that rewires the engine
(`set_processor`, `set_token_manager`, `set_environment`) or puts another engine in its place: that
is done from outside only.

Collaborators share a state of type `σ` among themselves, which they consult and replace between
requests. Filters may consult it too, at the time they are applied. What an `EntityProcessor` says
of the shape of an entity, and what its variants are sensitive to, depends on the entity alone; its
third method, `process`, is `Semantics.discover`.
-/

namespace ValueFlow

/-- Whether variants are created on demand or only looked up. -/
inductive Phase where
  | unstable
  | stable
  deriving DecidableEq, Repr, Inhabited

/-- A filter, which may consult the state that the collaborators share. -/
abbrev Filter (σ τ : Type) [Ordered τ] := σ → TokenSet τ → TokenSet τ

/-- What is known of the analysed program from outside. -/
structure Environment where
  hasClass : String → Bool

/-- The canonical form of a class name. -/
def Environment.resolveClass (e : Environment) (name : String) : Option String :=
  if e.hasClass name then some name else none

/-- **The state of the engine that collaborators can look at**: all of it but other collaborators. -/
structure View (ε τ σ : Type) [Ordered τ] where
  settings : Settings
  flow : Flow (Filter σ τ) τ
  variants : VariantTable ε
  phase : Phase := .unstable
  stats : Stats := {}
  /-- work done since cycles were last condensed -/
  workSincePass : Nat := 0
  environment : Option Environment := none

/-- **A collaborator at work**: a request with what follows on its answer, or the end. -/
inductive Routine (ε τ σ : Type) [Ordered τ] where
  | done
  | fail (e : Failure)
  /-- the variant of an entity in a context, created if need be -/
  | instantiate (entity : ε) (context : Context ε)
      (next : Except Failure (Option VariantId) → Routine ε τ σ)
  /-- the variant of an entity in a context, if there is one -/
  | find (entity : ε) (context : Context ε) (next : Option VariantId → Routine ε τ σ)
  | addNode (next : NodeId → Routine ε τ σ)
  | link (source target : NodeId) (next : Except Failure Bool → Routine ε τ σ)
  | deliver (node : NodeId) (tokens : TokenSet τ) (next : Except Failure Bool → Routine ε τ σ)
  | offer (node : NodeId) (tokens : TokenSet τ) (next : Except Failure Bool → Routine ε τ σ)
  | setFilter (node : NodeId) (filter : Filter σ τ) (next : Except Failure Unit → Routine ε τ σ)
  | filterByType (node : NodeId) (type : String) (next : Except Failure Bool → Routine ε τ σ)
  /-- react to all tokens that reach a node -/
  | listen (node : NodeId) (react : NodeId → TokenSet τ → Routine ε τ σ)
      (next : Except Failure ListenerId → Routine ε τ σ)
  /-- do something in the next round -/
  | postpone (task : Routine ε τ σ) (next : TaskId → Routine ε τ σ)
  /-- do a round of the queued work -/
  | round (next : Except Failure (Option Nat) → Routine ε τ σ)
  | condense (next : CondenseReport → Routine ε τ σ)
  /-- condense cycles if enough work was done since the last time -/
  | condenseIfDue (next : Option CondenseReport → Routine ε τ σ)
  | reset (next : Routine ε τ σ)
  | observe (next : View ε τ σ → Routine ε τ σ)
  | consult (next : σ → Routine ε τ σ)
  | replace (shared : σ) (next : Routine ε τ σ)
  /-- allow or forbid the analysis to go on after the current round -/
  | setActive (active : Bool) (next : Routine ε τ σ)

/-- **What an analysed language says about its entities.** -/
structure Semantics (ε τ σ : Type) [Ordered τ] where
  shape : ε → Shape
  sensitivity : ε → Sensitivity := fun _ => .full
  /-- what is done for a variant when it is created -/
  discover : VariantId → Routine ε τ σ

/-- **What knows the types of tokens.** -/
structure TokenManager (σ τ : Type) [Ordered τ] where
  /-- the filter for a type, if the type is known -/
  typeFilter : String → σ → Option (Filter σ τ) × σ
  /-- forget what belongs to a single run -/
  forget : σ → σ

end ValueFlow
