import ValueFlow.Engine.Run

/-!
# Analyses

An analysis enters its roots and then works in rounds until no work is left. Before every round it
asks whether it may go on; if not, it stops with what it has, and can be taken up again.

* `Analysis` (`AnalysisDriver`): an engine with its roots;
* `analyze`: a run from given roots;
* `solveWith` (`solve`): the rounds of a run, where the permission to go on (`can_proceed`) may come
  from anywhere;
* `valuesFor` (`get_values_for`) and its companions: what reached an entity.
-/

namespace ValueFlow

/-- How a run ended. -/
inductive Completion where
  /-- no work is left -/
  | converged
  /-- the run was stopped -/
  | cancelled
  deriving DecidableEq, Repr

/-- What is reported of a run that did not fail. -/
structure Report where
  completion : Completion
  stats : Stats
  deriving DecidableEq, Repr

theorem Report.of_completion {answer : Except Failure Report} {completion : Completion}
    (h : answer.toOption.map Report.completion = some completion) :
    ∃ stats, answer = .ok ⟨completion, stats⟩ := by
  cases answer with
  | error => cases h
  | ok report =>
    cases h
    exact ⟨report.stats, rfl⟩

/-- **An engine among its surroundings, and the roots that were entered.** -/
structure Analysis (ε τ σ : Type) [Ordered τ] where
  world : World ε τ σ
  roots : List ε := []

namespace World

variable {ε τ σ : Type} [Ordered τ] [DecidableEq ε]

/-- Enter roots one by one, up to the first failure; answers those that were entered. -/
def enterRoots (run : Runner ε τ σ) :
    List ε → World ε τ σ → Option (List ε × Outcome ε τ σ Unit)
  | [], w => some ([], .ok (), w)
  | root :: roots, w =>
    match w.instantiate run root (.forEntry root) with
    | none => none
    | some (.error e, w) => some ([], .error e, w)
    | some (.ok _, w) =>
      (enterRoots run roots w).map fun (entered, outcome) => (root :: entered, outcome)

/-- Work in rounds until no work is left. Before the `i`th round, `mayProceed i` is asked with the
state that is reached; `rounds` bounds their number. -/
def solveWith (mayProceed : Nat → World ε τ σ → Bool) (run : Runner ε τ σ) :
    (rounds i : Nat) → World ε τ σ → Option (Outcome ε τ σ Completion)
  | 0, _, _ => none
  | rounds + 1, i, w =>
    if mayProceed i w then
      match World.round run w with
      | none => none
      | some (.error e, w) => some (.error e, w)
      | some (.ok none, w) => some (.ok .converged, w)
      | some (.ok (some _), w) => solveWith mayProceed run rounds (i + 1) w.condenseIfDue.2
    else some (.ok .cancelled, w)

/-- **Work in rounds** as long as the analysis is active. -/
def solve (run : Runner ε τ σ) (rounds : Nat) (w : World ε τ σ) :
    Option (Outcome ε τ σ Completion) :=
  solveWith (fun _ w => w.active) run rounds 0 w

/-- At most `count` rounds, up to the first failure; answers for each how much work it did and
whether cycles were condensed after it. -/
def rounds (run : Runner ε τ σ) :
    Nat → World ε τ σ → Option (List (Nat × Bool) × Outcome ε τ σ Unit)
  | 0, w => some ([], .ok (), w)
  | count + 1, w =>
    match World.round run w with
    | none => none
    | some (.error e, w) => some ([], .error e, w)
    | some (.ok none, w) => some ([], .ok (), w)
    | some (.ok (some executed), w) =>
      let (report, w) := w.condenseIfDue
      (rounds run count w).map fun (done, outcome) =>
        ((executed, report.isSome) :: done, outcome)

end World

namespace Analysis

variable {ε τ σ : Type} [Ordered τ]

/-- A new analysis, unless the settings are out of bounds. -/
def new (settings : Settings) (shared : σ) : Except Failure (Analysis ε τ σ) :=
  match settings.validate with
  | .error e => .error (.settings e)
  | .ok _ => .ok { world := { engine := .new settings, shared } }

def engine (a : Analysis ε τ σ) : Engine ε τ σ := a.world.engine

/-! ## 1. Runs -/

variable [DecidableEq ε]

/-- Add entities to a list that lacks them. -/
def addAbsent (known : List ε) (entities : List ε) : List ε :=
  entities.foldl (fun known e => if known.contains e then known else known ++ [e]) known

/-- **Run from the given roots.** Without roots nothing happens but the failure. Collaborators nest
at most `fuel` deep, and there are at most so many rounds; `none` tells that it was not enough. -/
def analyze (fuel : Nat) (environment : Environment) (roots : List ε) (a : Analysis ε τ σ) :
    Option (Except Failure Report × Analysis ε τ σ) :=
  if roots.isEmpty then some (.error .noRoots, a)
  else
    let w := a.world
    let w := { w with engine :=
      { w.engine with environment := some environment, phase := .unstable } }
    match w.enterRoots (World.run fuel) roots with
    | none => none
    | some (entered, outcome) =>
      let roots := addAbsent a.roots entered
      match outcome with
      | (.error e, w) => some (.error e, { world := w, roots })
      | (.ok _, w) =>
        match w.solve (World.run fuel) fuel with
        | none => none
        | some (.error e, w) => some (.error e, { world := w, roots })
        | some (.ok .cancelled, w) =>
          some (.ok ⟨.cancelled, w.engine.stats⟩, { world := w, roots })
        | some (.ok .converged, w) =>
          some (.ok ⟨.converged, w.engine.stats⟩,
            { world := { w with engine := { w.engine with phase := .stable } }, roots })

/-- **Back to the start.** What is installed stays, and the analysis may go on again. -/
def reset (a : Analysis ε τ σ) : Analysis ε τ σ :=
  let w := a.world
  let shared := match w.engine.tokenManager with
    | some m => m.forget w.shared
    | none => w.shared
  { world := { engine := w.engine.reset, shared, active := true }, roots := [] }

/-! ## 2. Queries -/

/-- The variant of an entity in a context, if there is one. -/
def variant? (a : Analysis ε τ σ) (entity : ε) (c : Context ε) : Option (Variant ε) :=
  (a.engine.find? entity c).bind a.engine.variants.get?

/-- The tokens of a node, if there is one. -/
def valuesAt (a : Analysis ε τ σ) (n : Option NodeId) : TokenSet τ :=
  (n.bind a.engine.tokens?).getD ∅

/-- **The values of an entity**; of a method, its results. -/
def valuesFor (a : Analysis ε τ σ) (entity : ε) (c : Context ε) : TokenSet τ :=
  a.valuesAt ((a.variant? entity c).bind fun v => v.layout.node?)

omit [DecidableEq ε] in
def text (a : Analysis ε τ σ) : String :=
  let active := if a.world.active then "true" else "false"
  s!"AnalysisDriver \x7b engine: {a.engine.text}, roots: {a.roots.length}, active: {active} \x7d"

end Analysis

end ValueFlow
