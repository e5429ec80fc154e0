import ValueFlow.Engine.Analysis
import ValueFlow.Proofs.Engine.Deeds

/-!
# What is noted of a run

The state of an engine does not tell how it came about. The log of a run does, and some of it is
noted apart from the rest: which discoveries begin and how they end, when the engine is cleared,
which types are asked for, and which filters are applied to which tokens.

* `Entry.notes`, `World.notes`: the notes of an entry of a log, and those of a run;
* `Analysis.deeds`, `Analysis.notes`: the log and the notes of an analysis;
* `Analysis.analyze_logged`: the log of an analysis is a course of its engine.
-/

namespace ValueFlow

variable {ε τ σ : Type} [Ordered τ]

/-! ## 1. Notes -/

/-- **Something that happens in a run.** -/
inductive Note (τ σ : Type) [Ordered τ] where
  /-- the discovery of a variant begins -/
  | begun (variant : VariantId)
  /-- the discovery of a variant is over -/
  | ended (variant : VariantId) (outcome : Except Failure Unit)
  /-- the engine goes back to its start -/
  | cleared
  /-- the filter for a type is asked for -/
  | sought (type : String) (shared : σ)
  /-- a filter is applied -/
  | sieved (filter : Filter σ τ) (tokens : TokenSet τ) (shared : σ)

section Screenings

variable {φ : Type}

/-- What `screen` asks of the filter of a node. -/
def Graph.screenings (g : Graph φ τ) (n : NodeId) (tokens : TokenSet τ) :
    List (φ × TokenSet τ) :=
  (g.filter? n).toList.map fun f => (f, tokens)

/-- What `outbound` asks of the filter of a node. -/
def Graph.outboundScreenings (g : Graph φ τ) (n : NodeId) (tokens : TokenSet τ) :
    List (φ × TokenSet τ) :=
  if tokens.isEmpty then [] else g.screenings n tokens

/-- What a delivery asks of filters: once on the way in, and once for what is passed on. -/
def Flow.deliverScreenings (sieve : φ → TokenSet τ → TokenSet τ) (f : Flow φ τ) (n : NodeId)
    (tokens : TokenSet τ) : List (φ × TokenSet τ) :=
  let r := f.graph.representative n
  f.graph.screenings r (tokens \ f.graph.stored r) ++
    f.graph.outboundScreenings r (f.gain sieve n tokens)

/-- What is asked of filters to pass on what a node has. -/
def Flow.currentScreenings (f : Flow φ τ) (n : NodeId) : List (φ × TokenSet τ) :=
  let r := f.graph.representative n
  f.graph.outboundScreenings r (f.graph.stored r)

variable {g : Graph φ τ} {f : Flow φ τ} {n : NodeId} {tokens : TokenSet τ} {p : φ × TokenSet τ}

end Screenings

/-- Note down what is asked of filters. -/
def World.sievings (w : World ε τ σ) (asked : List (Filter σ τ × TokenSet τ)) : List (Note τ σ) :=
  asked.map fun (f, tokens) => .sieved f tokens w.shared

/-- **The notes of a request.** -/
def Request.notes (w : World ε τ σ) : Request ε τ σ → List (Note τ σ)
  | .link source target =>
    let g := w.flow.graph
    if g.contains source && g.contains target && !g.linked source target then
      w.sievings (w.flow.currentScreenings source)
    else []
  | .deliver n tokens =>
    if w.flow.graph.contains n then w.sievings (w.flow.deliverScreenings w.sieve n tokens) else []
  | .filterByType _ type => [.sought type w.shared]
  | .listen n _ =>
    if w.flow.graph.contains n then w.sievings (w.flow.currentScreenings n) else []
  | .reset => [.cleared]
  | _ => []

/-- **The notes of an entry.** -/
def Entry.notes (x : Entry ε τ σ) : List (Note τ σ) :=
  match x.deed with
  | .ask q => q.notes x.world
  | .discover id _ _ => [.begun id]
  | .discovered id outcome => [.ended id outcome]
  | .execute (.send n) =>
    match x.world.collect (.send n) with
    | (none, _) => []
    | (some tokens, w) => w.sievings (w.flow.deliverScreenings w.sieve n tokens)
  | _ => []

def notesOf (log : List (Entry ε τ σ)) : List (Note τ σ) := log.flatMap Entry.notes

@[simp]
theorem notesOf_nil : notesOf ([] : List (Entry ε τ σ)) = [] := rfl

@[simp]
theorem notesOf_cons (x : Entry ε τ σ) (log : List (Entry ε τ σ)) :
    notesOf (x :: log) = x.notes ++ notesOf log := List.flatMap_cons

/-- **The notes of a routine**, nesting at most `depth` deep. -/
def World.notes [DecidableEq ε] (depth : Nat) (r : Routine ε τ σ) (w : World ε τ σ) :
    List (Note τ σ) :=
  notesOf (World.deeds depth r w)

namespace World

variable [DecidableEq ε] (run : Runner ε τ σ) (deeds : Chronicler ε τ σ)

def enterRootsDeeds : List ε → World ε τ σ → List (Entry ε τ σ)
  | [], _ => []
  | root :: roots, w =>
    w.instantiateDeeds run deeds root (.forEntry root) ++
      match w.instantiate run root (.forEntry root) with
      | some (.ok _, w) => enterRootsDeeds roots w
      | _ => []

omit [DecidableEq ε] in
def solveDeeds : Nat → World ε τ σ → List (Entry ε τ σ)
  | 0, _ => []
  | rounds + 1, w =>
    if w.active then
      w.roundLog run deeds ++
        match World.round run w with
        | some (.ok (some _), w) => ⟨.ask .condenseIfDue, w⟩ :: solveDeeds rounds w.condenseIfDue.2
        | _ => []
    else []

omit [DecidableEq ε] in
/-- The world in which a run enters its roots. -/
def started (w : World ε τ σ) (environment : Environment) : World ε τ σ :=
  { w with engine := { w.engine with environment := some environment, phase := .unstable } }

end World

variable [DecidableEq ε]

/-- **The log of a run** from the given roots. -/
def Analysis.deeds (fuel : Nat) (environment : Environment) (roots : List ε)
    (a : Analysis ε τ σ) : List (Entry ε τ σ) :=
  if roots.isEmpty then []
  else
    let w := a.world.started environment
    w.enterRootsDeeds (World.run fuel) (World.deeds fuel) roots ++
      match w.enterRoots (World.run fuel) roots with
      | some (_, .ok _, w) => w.solveDeeds (World.run fuel) (World.deeds fuel) fuel
      | _ => []

/-- **The notes of a run** from the given roots. -/
def Analysis.notes (fuel : Nat) (environment : Environment) (roots : List ε)
    (a : Analysis ε τ σ) : List (Note τ σ) :=
  notesOf (a.deeds fuel environment roots)

/-! ## 3. The log of an analysis is a course -/

namespace World

variable {allowed : Request ε τ σ → Prop} {run : Runner ε τ σ} {deeds : Chronicler ε τ σ}
  {w w' : World ε τ σ}

theorem enterRoots_follows (hrun : Runner.Logs allowed run deeds) (hw : w.staff.Only allowed)
    {roots entered : List ε} {answer : Except Failure Unit}
    (h : w.enterRoots run roots = some (entered, answer, w')) :
    Follows allowed ⟨w, [], []⟩ (w.enterRootsDeeds run deeds roots) ⟨w', [], []⟩ := by
  induction roots generalizing w entered with
  | nil =>
    cases h
    exact .nil hw
  | cons root roots ih =>
    have hroot := instantiate_logged hrun hw [] [] root (.forEntry root)
    unfold enterRoots at h
    unfold enterRootsDeeds
    split at h
    · cases h
    · rename_i hdone
      cases h
      rw [hdone]
      exact (hroot.follows hdone).append (.nil (hroot.follows hdone).only)
    · rename_i hdone
      obtain ⟨⟨entered', outcome⟩, hrest, heq⟩ := Option.map_eq_some_iff.mp h
      cases heq
      rw [hdone]
      exact (hroot.follows hdone).append (ih (hroot.follows hdone).only hrest)

theorem solve_follows (hrun : Runner.Logs allowed run deeds) (hdue : allowed .condenseIfDue)
    (hw : w.staff.Only allowed) {rounds i : Nat} {answer : Except Failure Completion}
    (h : w.solveWith (fun _ w => w.active) run rounds i = some (answer, w')) :
    Follows allowed ⟨w, [], []⟩ (w.solveDeeds run deeds rounds) ⟨w', [], []⟩ := by
  induction rounds generalizing w i with
  | zero => cases h
  | succ rounds ih =>
    have hround := round_logged hrun hw [] []
    unfold solveWith at h
    unfold solveDeeds
    cases hactive : w.active with
    | false =>
      rw [hactive] at h
      cases h
      exact .nil hw
    | true =>
      rw [hactive] at h
      simp only [if_true] at h ⊢
      split at h
      · cases h
      · rename_i hdone
        cases h
        rw [hdone]
        exact (hround.follows hdone).append (.nil (hround.follows hdone).only)
      · rename_i hdone
        cases h
        rw [hdone]
        exact (hround.follows hdone).append (.nil (hround.follows hdone).only)
      · rename_i w₁ hdone
        rw [hdone]
        have honly : (Request.condenseIfDue.perform w₁).staff.Only allowed :=
          Request.Only.perform (q := .condenseIfDue) hdue (hround.follows hdone).only
        exact (hround.follows hdone).append (.cons (.ask .condenseIfDue) hdue (ih honly h))

end World

/-- **The log of an analysis is a course of its engine**, between the entry of the roots and the end
of the last round. -/
theorem Analysis.analyze_logged {fuel : Nat} {environment : Environment} {roots : List ε}
    {a b : Analysis ε τ σ} {answer : Except Failure Report}
    (h : a.analyze fuel environment roots = some (answer, b)) :
    (b = a ∧ a.deeds fuel environment roots = []) ∨
      ∃ w phase, Course ⟨a.world.started environment, [], []⟩ (a.deeds fuel environment roots)
          ⟨w, [], []⟩ ∧ b.world = { w with engine := { w.engine with phase } } := by
  have hrun : Runner.Logs (fun _ => True) (World.run fuel : Runner ε τ σ) (World.deeds fuel) :=
    World.run_logged fuel
  unfold analyze at h
  unfold deeds
  cases hroots : roots.isEmpty with
  | true =>
    rw [hroots] at h
    cases h
    exact .inl ⟨rfl, rfl⟩
  | false =>
    rw [hroots] at h
    simp only [Bool.false_eq_true, if_false] at h ⊢
    refine .inr ?_
    split at h
    · cases h
    · rename_i entered outcome henter
      obtain ⟨answer', w₀⟩ := outcome
      have hentered := World.enterRoots_follows (w := a.world.started environment) hrun
        (Staff.only_of_forall (fun _ => trivial) _) henter
      rw [show (a.world.started environment).enterRoots (World.run fuel) roots =
        some (entered, answer', w₀) from henter]
      cases answer' with
      | error e =>
        cases h
        exact ⟨w₀, _, hentered.course.append .nil, rfl⟩
      | ok =>
        have hsolved : ∀ {answer w}, w₀.solve (World.run fuel) fuel = some (answer, w) →
            Course ⟨w₀, [], []⟩ (w₀.solveDeeds (World.run fuel) (World.deeds fuel) fuel)
              ⟨w, [], []⟩ :=
          fun hsolve => (World.solve_follows hrun trivial hentered.only hsolve).course
        dsimp only at h ⊢
        split at h
        · cases h
        · rename_i w hsolve
          cases h
          exact ⟨w, _, hentered.course.append (hsolved hsolve), rfl⟩
        · rename_i w hsolve
          cases h
          exact ⟨w, _, hentered.course.append (hsolved hsolve), rfl⟩
        · rename_i w hsolve
          cases h
          exact ⟨w, _, hentered.course.append (hsolved hsolve), rfl⟩

end ValueFlow
