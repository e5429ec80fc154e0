import Mathlib.Logic.Relation
import ValueFlow.Proofs.Engine.Depth
import ValueFlow.Proofs.Engine.Notes

/-!
# Stopping and going on

Before every round an analysis asks whether it may go on. If it may not, it stops with what it has,
and a later call with the same roots takes it up again. That call enters the roots a second time,
but their variants are there, so nothing comes of it, and it works on from where the other one
stopped. All this holds as long as no collaborator resets the engine, which would make it forget the
roots.

* `Cycle`, `Cycles`: rounds with what is condensed after them, whoever asks for them;
* `World.solveWith_cycles`, `World.solve_of_cycles`: calls are such cycles, and the other way round;
* `Interrupted.resumed`: calls that are stopped anywhere and taken up again end where one call ends
  that is not stopped, and a further call changes nothing;
* `reset_repeats_discovery`: with a collaborator that resets the engine they do not.
-/

namespace ValueFlow

variable {ε τ σ : Type} [Ordered τ]

/-! ## 1. What leaves an analysis resumable -/

/-- A request that neither resets the engine nor touches the permission to go on. -/
def Resumable : Request ε τ σ → Prop
  | .reset | .setActive _ => False
  | _ => True

theorem Resumable.of_only {q : Request ε τ σ} (h : q.Only Resumable) :
    q ≠ .reset ∧ ∀ active, q ≠ .setActive active := by
  cases q <;> first | exact h.elim | exact ⟨nofun, nofun⟩

/-- **A step that resets nothing leaves the permission to go on.** -/
theorem Step.active [DecidableEq ε] {m m' : Moment ε τ σ} {d : Deed ε τ σ} (h : Step m d m')
    (hd : d.Only Resumable) : m'.world.active = m.world.active := by
  cases h with
  | @ask w _ _ q =>
    obtain ⟨hreset, hactive⟩ := Resumable.of_only hd
    exact (Request.frame hreset w).active hactive
  | discover _ hfind _ hcreate =>
    subst hcreate
    obtain ⟨_, _, hcreate⟩ := World.create_eq _ hfind
    rw [hcreate]
  | _ => rfl

/-- **Collaborators ask for nothing else, and variants may be created.** -/
structure World.Running (w : World ε τ σ) : Prop where
  only : w.staff.Only Resumable
  phase : w.setup.phase = .unstable

/-- **The one world runs on to the other.** -/
structure World.RunsOn [DecidableEq ε] (w w' : World ε τ σ) : Prop where
  running : w'.Running
  setup : w'.setup = w.setup
  active : w'.active = w.active
  keeps : w.Keeps w'

namespace World

variable [DecidableEq ε] {w w₁ w' : World ε τ σ} {depth : Nat}

theorem RunsOn.refl (h : w.Running) : w.RunsOn w := ⟨h, rfl, rfl, rfl, id⟩

theorem RunsOn.trans (h : w.RunsOn w₁) (h' : w₁.RunsOn w') : w.RunsOn w' :=
  ⟨h'.running, h'.setup.trans h.setup, h'.active.trans h.active, h.keeps.trans h'.keeps⟩

theorem RunsOn.of_follows {log : List (Entry ε τ σ)} (h : w.Running)
    (hfollows : Follows Resumable ⟨w, [], []⟩ log ⟨w', [], []⟩) : w.RunsOn w' := by
  have hsame := hfollows.course.sameSetup.setup h.phase
  have hactive : w'.active = w.active :=
    hfollows.course.relates (R := fun w w' => w'.active = w.active) (P := Deed.Only Resumable)
      (fun _ => rfl) (fun hfirst hrest => hrest.trans hfirst) Step.active hfollows.asked
  exact ⟨⟨hfollows.only, hsame ▸ h.phase⟩, hsame, hactive, hfollows.course.keeps
    (hfollows.isReset id)⟩

theorem run_runsOn (h : w.Running) {r : Routine ε τ σ} {answer : Except Failure Unit}
    (hr : r.Only Resumable) (hdone : World.run depth r w = some (answer, w')) : w.RunsOn w' :=
  .of_follows h ((run_logged depth [] [] hr h.only).follows hdone)

theorem instantiate_runsOn (h : w.Running) {entity : ε} {c : Context ε}
    {answer : Except Failure (Option VariantId)}
    (hdone : w.instantiate (World.run depth) entity c = some (answer, w')) : w.RunsOn w' :=
  .of_follows h ((instantiate_logged (run_logged depth) h.only [] [] entity c).follows hdone)

theorem round_runsOn (h : w.Running) {answer : Except Failure (Option Nat)}
    (hdone : World.round (World.run depth) w = some (answer, w')) : w.RunsOn w' :=
  .of_follows h ((round_logged (run_logged depth) h.only [] []).follows hdone)

theorem condenseIfDue_runsOn (h : w.Running) : w.RunsOn w.condenseIfDue.2 := by
  have honly : (Request.condenseIfDue.perform w).staff.Only Resumable :=
    Request.Only.perform (q := .condenseIfDue) trivial h.only
  exact .of_follows h (.cons (.ask .condenseIfDue) trivial (.nil honly))

/-! ## 2. Entering roots again -/

/-- The variant of a root is there. -/
def Knows (w : World ε τ σ) (root : ε) : Prop :=
  ∃ id, w.engine.find? root (.forEntry root) = some id

theorem Knows.runsOn {root : ε} (h : w.Knows root) (hrun : w.RunsOn w') : w'.Knows root := by
  obtain ⟨id, hid⟩ := h
  exact ⟨id, hrun.keeps.find? hid⟩

/-- A new variant is found before its discovery runs. -/
theorem running_create (h : w.Running) {entity : ε} {c : Context ε} (shape : Shape)
    (hfind : w.engine.variants.find? entity c = none) :
    (w.create entity c shape).2.Running ∧ (w.create entity c shape).2.setup = w.setup ∧
      (w.create entity c shape).2.engine.variants.find? entity c =
        some w.engine.variants.nextId := by
  have honly := (staff_create shape hfind).mpr h.only
  have hfound := find?_create shape hfind
  obtain ⟨_, _, hcreate⟩ := create_eq shape hfind
  rw [hcreate] at honly hfound ⊢
  exact ⟨⟨honly, h.phase⟩, rfl, hfound⟩

/-- A root that was entered without a failure is known from then on. -/
theorem knows_of_instantiate (h : w.Running) {root : ε} {answer : Option VariantId}
    (hdone : w.instantiate (World.run depth) root (.forEntry root) = some (.ok answer, w')) :
    w'.Knows root := by
  cases hs : w.engine.semantics with
  | none =>
    rw [instantiate_unconfigured _ hs _ _] at hdone
    cases hdone
  | some s =>
    cases hfind : w.engine.variants.find? root
        ((Context.forEntry root).project (s.sensitivity root)) with
    | some id =>
      have hknows : w.Knows root := ⟨id, Option.bind_eq_some_iff.mpr ⟨s, hs, hfind⟩⟩
      exact hknows.runsOn (instantiate_runsOn h hdone)
    | none =>
      have hstable : w.engine.isStable = false := by
        have hphase : w.engine.phase = .unstable := h.phase
        unfold Engine.isStable
        rw [hphase]
        rfl
      rw [instantiate_new _ hs hfind hstable rfl] at hdone
      obtain ⟨⟨outcome, w₁⟩, hdiscover, heq⟩ := Option.map_eq_some_iff.mp hdone
      obtain rfl : w₁ = w' := congrArg Prod.snd heq
      obtain ⟨hcreated, hsetup, hfound⟩ := running_create h (s.shape root) hfind
      have hs' := (congrArg Setup.semantics hsetup).trans hs
      have hknows : (w.create root _ (s.shape root)).2.Knows root :=
        ⟨_, Option.bind_eq_some_iff.mpr ⟨s, hs', hfound⟩⟩
      exact hknows.runsOn (run_runsOn hcreated (h.only.semantics hs _) hdiscover)

theorem enterRoots_runsOn (h : w.Running) {roots entered : List ε}
    (hdone : w.enterRoots (World.run depth) roots = some (entered, .ok (), w')) :
    w.RunsOn w' ∧ entered = roots ∧ ∀ root ∈ roots, w'.Knows root := by
  induction roots generalizing w entered with
  | nil =>
    cases hdone
    exact ⟨.refl h, rfl, nofun⟩
  | cons root roots ih =>
    unfold enterRoots at hdone
    split at hdone
    · cases hdone
    · cases hdone
    · rename_i answer w₁ hroot
      obtain ⟨⟨entered', outcome⟩, hrest, heq⟩ := Option.map_eq_some_iff.mp hdone
      cases heq
      have hfirst := instantiate_runsOn h hroot
      obtain ⟨hrun, rfl, hknows⟩ := ih hfirst.running hrest
      refine ⟨hfirst.trans hrun, rfl, fun r hr => ?_⟩
      rcases List.mem_cons.mp hr with rfl | hr
      · exact (knows_of_instantiate h hroot).runsOn hrun
      · exact hknows r hr

/-- **Roots that are known are entered without any effect.** -/
theorem enterRoots_of_knows (run : Runner ε τ σ) {roots : List ε}
    (h : ∀ root ∈ roots, w.Knows root) : w.enterRoots run roots = some (roots, .ok (), w) := by
  induction roots with
  | nil => rfl
  | cons root roots ih =>
    obtain ⟨id, hid⟩ := h root List.mem_cons_self
    obtain ⟨s, hs, hfind⟩ := Option.bind_eq_some_iff.mp hid
    unfold enterRoots
    rw [instantiate_known run hs hfind]
    dsimp only
    rw [ih fun r hr => h r (List.mem_cons_of_mem _ hr)]
    rfl

/-! ## 3. Cycles -/

omit [DecidableEq ε] in
/-- No work is queued. -/
def Idle (w : World ε τ σ) : Prop := w.flow.agenda.startRound = none

end World

variable [DecidableEq ε]

/-- **A round in which something was queued, and what is condensed after it.** -/
def Cycle (w w' : World ε τ σ) : Prop :=
  ∃ depth executed w₁, World.round (World.run depth) w = some (.ok (some executed), w₁) ∧
    w' = w₁.condenseIfDue.2

/-- Any number of cycles. -/
def Cycles : World ε τ σ → World ε τ σ → Prop := Relation.ReflTransGen Cycle

namespace World

variable {w w₁ w' : World ε τ σ} {depth depth' : Nat}

/-- Rounds that come to an end come to the same end, however deep collaborators may nest. -/
theorem round_unique {x y : Outcome ε τ σ (Option Nat)}
    (h : World.round (World.run depth) w = some x)
    (h' : World.round (World.run depth') w = some y) : x = y := by
  rcases Nat.le_total depth depth' with hle | hle
  · exact Option.some.inj (((round_mono (run_mono hle) w).eq_some h).symm.trans h')
  · exact Option.some.inj (h.symm.trans ((round_mono (run_mono hle) w).eq_some h'))

omit [DecidableEq ε] in
theorem round_eq_ok_none {run : Runner ε τ σ} (h : World.round run w = some (.ok none, w')) :
    w.Idle ∧ w' = w := by
  unfold World.round at h
  split at h
  · rename_i hstart
    cases h
    exact ⟨hstart, rfl⟩
  · obtain ⟨⟨p, w₁⟩, -, hfinish⟩ := Option.map_eq_some_iff.mp h
    unfold finishRound at hfinish
    dsimp only at hfinish
    split at hfinish <;> cases hfinish

theorem Cycle.runsOn (h : Cycle w w') (hw : w.Running) : w.RunsOn w' := by
  obtain ⟨depth, executed, w₁, hround, rfl⟩ := h
  have hrun := round_runsOn hw hround
  exact hrun.trans (condenseIfDue_runsOn hrun.running)

theorem Cycles.runsOn (h : Cycles w w') (hw : w.Running) : w.RunsOn w' := by
  induction h with
  | refl => exact .refl hw
  | tail _ hcycle ih => exact ih.trans (Cycle.runsOn hcycle ih.running)

/-- **Whatever a call comes to without a failure, it comes to by cycles**, and if it converges no
work is left. -/
theorem solveWith_cycles {mayProceed : Nat → World ε τ σ → Bool} {rounds i : Nat}
    {completion : Completion}
    (h : w.solveWith mayProceed (World.run depth) rounds i = some (.ok completion, w')) :
    Cycles w w' ∧ (completion = .converged → w'.Idle) := by
  induction rounds generalizing w i with
  | zero => cases h
  | succ rounds ih =>
    unfold solveWith at h
    split at h
    · split at h
      · cases h
      · cases h
      · rename_i hround
        cases h
        obtain ⟨hidle, rfl⟩ := round_eq_ok_none hround
        exact ⟨.refl, fun _ => hidle⟩
      · rename_i executed w₁ hround
        obtain ⟨hcycles, hidle⟩ := ih h
        exact ⟨.head ⟨depth, executed, w₁, hround, rfl⟩ hcycles, hidle⟩
    · cases h
      exact ⟨.refl, nofun⟩

/-- **Cycles that leave no work are what a call does that is not stopped.** -/
theorem solve_of_cycles (h : Cycles w w') (hidle : w'.Idle) (hw : w.Running)
    (hactive : w.active = true) : ∃ fuel, ∀ i,
      w.solveWith (fun _ w => w.active) (World.run fuel) fuel i = some (.ok .converged, w') := by
  induction h using Relation.ReflTransGen.head_induction_on with
  | refl =>
    refine ⟨1, fun i => ?_⟩
    unfold solveWith
    simp only [hactive, if_true]
    rw [round_idle _ hidle]
  | @head w w₁ hcycle _ ih =>
    have hrun := Cycle.runsOn hcycle hw
    obtain ⟨fuel, hfuel⟩ := ih hrun.running (hrun.active.trans hactive)
    obtain ⟨depth, executed, w₂, hround, rfl⟩ := hcycle
    refine ⟨max depth fuel + 1, fun i => ?_⟩
    have hround' := (round_mono (run_mono (show depth ≤ max depth fuel + 1 by omega)) w).eq_some
      hround
    unfold solveWith
    simp only [hactive, if_true]
    rw [hround']
    exact (solveWith_mono (run_mono (by omega)) _ (by omega) _ _).eq_some (hfuel (i + 1))

/-- A call that is not stopped also converges from where cycles have led. -/
theorem solve_after_cycles {fuel : Nat} {w₂ : World ε τ σ} (h : Cycles w w₁) (hw : w.Running)
    (hactive : w.active = true) {i : Nat}
    (hsolve : w.solveWith (fun _ w => w.active) (World.run depth) fuel i =
      some (.ok .converged, w₂)) :
    ∃ i', w₁.solveWith (fun _ w => w.active) (World.run depth) fuel i' =
      some (.ok .converged, w₂) := by
  induction h using Relation.ReflTransGen.head_induction_on generalizing i with
  | refl => exact ⟨i, hsolve⟩
  | @head w w₃ hcycle _ ih =>
    have hrun := Cycle.runsOn hcycle hw
    cases fuel with
    | zero => cases hsolve
    | succ fuel =>
      unfold solveWith at hsolve
      simp only [hactive, if_true] at hsolve
      obtain ⟨depth', executed, w₄, hround, rfl⟩ := hcycle
      split at hsolve
      · cases hsolve
      · cases hsolve
      · rename_i hround'
        cases round_unique hround hround'
      · rename_i hround'
        cases round_unique hround hround'
        exact ih hrun.running (hrun.active.trans hactive)
          ((solveWith_mono (run_mono le_rfl) _ (Nat.le_succ fuel) _ _).eq_some hsolve)

/-- A call that may be stopped is stopped, or converges like one that is not. -/
theorem solveWith_stopped_or {mayProceed : Nat → World ε τ σ → Bool} {rounds i j : Nat}
    (hw : w.Running) (hactive : w.active = true)
    (hsolve : w.solveWith (fun _ w => w.active) (World.run depth) rounds i =
      some (.ok .converged, w')) :
    (∃ w₁, w.solveWith mayProceed (World.run depth) rounds j = some (.ok .cancelled, w₁)) ∨
      w.solveWith mayProceed (World.run depth) rounds j = some (.ok .converged, w') := by
  induction rounds generalizing w i j with
  | zero => cases hsolve
  | succ rounds ih =>
    unfold solveWith at hsolve ⊢
    simp only [hactive, if_true] at hsolve
    by_cases hmay : mayProceed j w = true
    · simp only [hmay, if_true]
      split at hsolve
      · cases hsolve
      · cases hsolve
      · exact .inr hsolve
      · rename_i executed w₁ hround
        have hrun := Cycle.runsOn ⟨depth, executed, w₁, hround, rfl⟩ hw
        exact ih hrun.running (hrun.active.trans hactive) hsolve
    · exact .inl ⟨w, by rw [if_neg hmay]⟩

end World

/-! ## 4. Calls -/

omit [DecidableEq ε] in
/-- The world as a call leaves it that ended in this way. -/
def World.ended (w : World ε τ σ) : Completion → World ε τ σ
  | .cancelled => w
  | .converged => { w with engine := { w.engine with phase := .stable } }

omit [DecidableEq ε] in
theorem World.started_ended {w : World ε τ σ} {environment : Environment}
    (henvironment : w.setup.environment = some environment) (hphase : w.setup.phase = .unstable)
    (completion : Completion) : (w.ended completion).started environment = w := by
  have hstarted : w.started environment = w := by
    unfold started
    rw [← henvironment, ← hphase]
    rfl
  cases completion <;> exact hstarted

namespace Analysis

theorem addAbsent_of_subset {known entities : List ε} (h : ∀ e ∈ entities, e ∈ known) :
    addAbsent known entities = known := by
  unfold addAbsent
  induction entities with
  | nil => rfl
  | cons e entities ih =>
    rw [List.foldl_cons, if_pos (List.contains_iff_mem.mpr (h e List.mem_cons_self))]
    exact ih fun e he => h e (List.mem_cons_of_mem _ he)

theorem mem_addAbsent {known entities : List ε} {e : ε} (h : e ∈ known ∨ e ∈ entities) :
    e ∈ addAbsent known entities := by
  unfold addAbsent
  induction entities generalizing known with
  | nil => exact h.resolve_right List.not_mem_nil
  | cons x entities ih =>
    refine ih ?_
    dsimp only
    rcases h with h | h
    · split
      · exact .inl h
      · exact .inl (List.mem_append_left _ h)
    · rcases List.mem_cons.mp h with rfl | h
      · split
        · rename_i hx
          exact .inl (List.contains_iff_mem.mp hx)
        · exact .inl (List.mem_append_right _ List.mem_cons_self)
      · exact .inr h

/-- To add the same entities again changes nothing. -/
theorem addAbsent_addAbsent (known entities : List ε) :
    addAbsent (addAbsent known entities) entities = addAbsent known entities :=
  addAbsent_of_subset fun _ he => mem_addAbsent (.inr he)

/-- **A run whose permission to go on comes from anywhere.** Before the `i`th round `mayProceed i`
is asked with the state that is reached. -/
def analyzeWith (mayProceed : Nat → World ε τ σ → Bool) (fuel : Nat) (environment : Environment)
    (roots : List ε) (a : Analysis ε τ σ) : Option (Except Failure Report × Analysis ε τ σ) :=
  if roots.isEmpty then some (.error .noRoots, a)
  else
    match (a.world.started environment).enterRoots (World.run fuel) roots with
    | none => none
    | some (entered, outcome) =>
      let roots := addAbsent a.roots entered
      match outcome with
      | (.error e, w) => some (.error e, { world := w, roots })
      | (.ok _, w) =>
        match w.solveWith mayProceed (World.run fuel) fuel 0 with
        | none => none
        | some (.error e, w) => some (.error e, { world := w, roots })
        | some (.ok .cancelled, w) =>
          some (.ok ⟨.cancelled, w.engine.stats⟩, { world := w, roots })
        | some (.ok .converged, w) =>
          some (.ok ⟨.converged, w.engine.stats⟩,
            { world := { w with engine := { w.engine with phase := .stable } }, roots })

/-- An analysis is asked before every round whether it is active. -/
theorem analyze_eq_analyzeWith (fuel : Nat) (environment : Environment) (roots : List ε)
    (a : Analysis ε τ σ) :
    a.analyze fuel environment roots =
      a.analyzeWith (fun _ w => w.active) fuel environment roots := rfl

/-- **What a call does that does not fail.** -/
theorem analyzeWith_eq_ok_iff {mayProceed : Nat → World ε τ σ → Bool} {fuel : Nat}
    {environment : Environment} {roots : List ε} {a b : Analysis ε τ σ} {completion : Completion}
    {stats : Stats} :
    a.analyzeWith mayProceed fuel environment roots = some (.ok ⟨completion, stats⟩, b) ↔
      roots ≠ [] ∧ ∃ entered w₀ w,
        (a.world.started environment).enterRoots (World.run fuel) roots =
          some (entered, .ok (), w₀) ∧
        w₀.solveWith mayProceed (World.run fuel) fuel 0 = some (.ok completion, w) ∧
        stats = w.engine.stats ∧ b = ⟨w.ended completion, addAbsent a.roots entered⟩ := by
  unfold analyzeWith
  cases roots with
  | nil => exact ⟨nofun, fun h => absurd rfl h.1⟩
  | cons root roots =>
    simp only [List.isEmpty_cons, Bool.false_eq_true, if_false, ne_eq, reduceCtorEq,
      not_false_eq_true, true_and]
    constructor
    · intro h
      split at h
      · cases h
      · rename_i entered outcome henter
        split at h
        · cases h
        · rename_i w₀
          split at h
          · cases h
          · cases h
          · rename_i w hsolve
            cases h
            exact ⟨entered, w₀, w, henter, hsolve, rfl, rfl⟩
          · rename_i w hsolve
            cases h
            exact ⟨entered, w₀, w, henter, hsolve, rfl, rfl⟩
    · rintro ⟨entered, w₀, w, henter, hsolve, rfl, rfl⟩
      rw [henter]
      dsimp only
      rw [hsolve]
      cases completion <;> rfl

end Analysis

/-- **Calls that were all stopped**, each of them anywhere. -/
inductive Interrupted (environment : Environment) (roots : List ε) (a : Analysis ε τ σ) :
    Analysis ε τ σ → Prop where
  | start : Interrupted environment roots a a
  | stop {b c mayProceed fuel stats} : Interrupted environment roots a b →
      b.analyzeWith mayProceed fuel environment roots = some (.ok ⟨.cancelled, stats⟩, c) →
      Interrupted environment roots a c

/-- The roots were entered, and cycles have led to the world. -/
def Analysis.Entered (environment : Environment) (roots : List ε) (a : Analysis ε τ σ)
    (w : World ε τ σ) : Prop :=
  ∃ depth w₀, (a.world.started environment).enterRoots (World.run depth) roots =
    some (roots, .ok (), w₀) ∧ Cycles w₀ w

namespace Analysis.Entered

variable {environment : Environment} {roots : List ε} {a b c : Analysis ε τ σ}
  {w w' : World ε τ σ} {mayProceed : Nat → World ε τ σ → Bool} {fuel : Nat} {stats : Stats}
  {completion : Completion}

omit [DecidableEq ε] in
theorem running_started (h : a.world.staff.Only Resumable) (environment : Environment) :
    (a.world.started environment).Running := ⟨h, rfl⟩

theorem runsOn (h : a.Entered environment roots w) (ha : a.world.staff.Only Resumable) :
    (a.world.started environment).RunsOn w ∧ ∀ root ∈ roots, w.Knows root := by
  obtain ⟨depth, w₀, henter, hcycles⟩ := h
  obtain ⟨hrun, -, hknows⟩ := World.enterRoots_runsOn (running_started ha environment) henter
  have hon := World.Cycles.runsOn hcycles hrun.running
  exact ⟨hrun.trans hon, fun root hroot => (hknows root hroot).runsOn hon⟩

/-- A further call starts in the world as it is, and enters nothing. -/
theorem enterRoots_again (h : a.Entered environment roots w) (ha : a.world.staff.Only Resumable)
    (completion : Completion) (run : Runner ε τ σ) :
    ((w.ended completion).started environment).enterRoots run roots =
      some (roots, .ok (), w) := by
  obtain ⟨hrun, hknows⟩ := h.runsOn ha
  rw [World.started_ended (congrArg Setup.environment hrun.setup)
    (congrArg Setup.phase hrun.setup) completion]
  exact World.enterRoots_of_knows run hknows

/-- A call from the start, or from where other calls were stopped. -/
theorem of_call (hb : b = a ∨ a.Entered environment roots b.world ∧
      b.roots = addAbsent a.roots roots)
    (ha : a.world.staff.Only Resumable)
    (h : b.analyzeWith mayProceed fuel environment roots = some (.ok ⟨completion, stats⟩, c)) :
    ∃ w, a.Entered environment roots w ∧ (completion = .converged → w.Idle) ∧
      stats = w.engine.stats ∧ c = ⟨w.ended completion, addAbsent a.roots roots⟩ := by
  obtain ⟨-, entered, w₀, w, henter, hsolve, hstats, hc⟩ := analyzeWith_eq_ok_iff.mp h
  obtain ⟨hcycles, hidle⟩ := World.solveWith_cycles hsolve
  rcases hb with rfl | ⟨hb, hroots⟩
  · obtain ⟨-, rfl, -⟩ := World.enterRoots_runsOn (running_started ha environment) henter
    exact ⟨w, ⟨fuel, w₀, henter, hcycles⟩, hidle, hstats, hc⟩
  · cases (hb.enterRoots_again ha .cancelled (World.run fuel)).symm.trans henter
    obtain ⟨depth, w₁, hfirst, hcycles₁⟩ := hb
    rw [hroots, addAbsent_addAbsent] at hc
    exact ⟨w, ⟨depth, w₁, hfirst, hcycles₁.trans hcycles⟩, hidle, hstats, hc⟩

theorem of_interrupted (h : Interrupted environment roots a b) (ha : a.world.staff.Only Resumable) :
    b = a ∨ a.Entered environment roots b.world ∧ b.roots = addAbsent a.roots roots := by
  induction h with
  | start => exact .inl rfl
  | stop _ hcall ih =>
    obtain ⟨w, hw, -, -, rfl⟩ := of_call ih ha hcall
    exact .inr ⟨hw, rfl⟩

/-- One call that is not stopped comes to the same end. -/
theorem analyze_of_idle (h : a.Entered environment roots w) (ha : a.world.staff.Only Resumable)
    (hactive : a.world.active = true) (hroots : roots ≠ []) (hidle : w.Idle) :
    ∃ fuel, a.analyze fuel environment roots = some (.ok ⟨.converged, w.engine.stats⟩,
      ⟨w.ended .converged, addAbsent a.roots roots⟩) := by
  obtain ⟨depth, w₀, henter, hcycles⟩ := h
  obtain ⟨hrun, -, -⟩ := World.enterRoots_runsOn (running_started ha environment) henter
  obtain ⟨fuel, hfuel⟩ := World.solve_of_cycles hcycles hidle hrun.running
    (hrun.active.trans hactive)
  refine ⟨max depth fuel, ?_⟩
  rw [analyze_eq_analyzeWith, analyzeWith_eq_ok_iff]
  refine ⟨hroots, roots, w₀, w, ?_, ?_, rfl, rfl⟩
  · exact (World.enterRoots_mono (World.run_mono (Nat.le_max_left _ _)) roots _).eq_some henter
  · exact (World.solveWith_mono (World.run_mono (Nat.le_max_right _ _)) _ (Nat.le_max_right _ _) _
      _).eq_some (hfuel 0)

/-- A call after the end changes nothing. -/
theorem analyze_again (h : a.Entered environment roots w) (ha : a.world.staff.Only Resumable)
    (hactive : a.world.active = true) (hroots : roots ≠ []) (hidle : w.Idle) (fuel : Nat) :
    Analysis.analyze (fuel + 1) environment roots
        ⟨w.ended .converged, addAbsent a.roots roots⟩ =
      some (.ok ⟨.converged, w.engine.stats⟩,
        ⟨w.ended .converged, addAbsent a.roots roots⟩) := by
  rw [analyze_eq_analyzeWith, analyzeWith_eq_ok_iff]
  have hactive' : w.active = true := (h.runsOn ha).1.active.trans hactive
  refine ⟨hroots, roots, w, w, h.enterRoots_again ha .converged _, ?_, rfl, ?_⟩
  · unfold World.solveWith
    simp only [hactive', if_true]
    rw [World.round_idle _ hidle]
  · rw [addAbsent_addAbsent]

/-- Where one call converges, a call from where others were stopped converges to the same, unless it
is stopped itself. -/
theorem analyzeWith_stopped_or (hb : b = a ∨ a.Entered environment roots b.world ∧
      b.roots = addAbsent a.roots roots)
    (ha : a.world.staff.Only Resumable) (hactive : a.world.active = true)
    (h : a.analyze fuel environment roots = some (.ok ⟨.converged, stats⟩, c)) :
    (∃ stats' c', b.analyzeWith mayProceed fuel environment roots =
        some (.ok ⟨.cancelled, stats'⟩, c')) ∨
      b.analyzeWith mayProceed fuel environment roots = some (.ok ⟨.converged, stats⟩, c) := by
  obtain ⟨hroots, entered, w₀, w, henter, hsolve, rfl, rfl⟩ := analyzeWith_eq_ok_iff.mp h
  obtain ⟨hrun, rfl, -⟩ := World.enterRoots_runsOn (running_started ha environment) henter
  have hactive₀ : w₀.active = true := hrun.active.trans hactive
  -- the world from which the call works on, and that it comes to the same end from there
  obtain ⟨w₁, henter₁, hroots₁, i, hrunning, hactive₁, hsolve₁⟩ : ∃ w₁,
      (b.world.started environment).enterRoots (World.run fuel) entered =
        some (entered, .ok (), w₁) ∧ addAbsent b.roots entered = addAbsent a.roots entered ∧
      ∃ i, w₁.Running ∧ w₁.active = true ∧
        w₁.solveWith (fun _ w => w.active) (World.run fuel) fuel i = some (.ok .converged, w) := by
    rcases hb with rfl | ⟨hb, hbroots⟩
    · exact ⟨w₀, henter, rfl, 0, hrun.running, hactive₀, hsolve⟩
    · have henter₁ := hb.enterRoots_again ha .cancelled (World.run fuel)
      have hon := (hb.runsOn ha).1
      obtain ⟨depth, w₂, hfirst, hcycles⟩ := hb
      have heq : w₂ = w₀ := by
        rcases Nat.le_total depth fuel with hle | hle
        · have := (World.enterRoots_mono (World.run_mono hle) _ _).eq_some hfirst
          cases this.symm.trans henter
          rfl
        · have := (World.enterRoots_mono (World.run_mono hle) _ _).eq_some henter
          cases this.symm.trans hfirst
          rfl
      subst heq
      obtain ⟨i, hsolve₁⟩ := World.solve_after_cycles hcycles hrun.running hactive₀ hsolve
      rw [hbroots, addAbsent_addAbsent]
      exact ⟨b.world, henter₁, rfl, i, hon.running, hon.active.trans hactive, hsolve₁⟩
  rcases World.solveWith_stopped_or (j := 0) hrunning hactive₁ hsolve₁ with ⟨w₂, hstop⟩ | hend
  · exact .inl ⟨_, _, analyzeWith_eq_ok_iff.mpr
      ⟨hroots, entered, w₁, w₂, henter₁, hstop, rfl, rfl⟩⟩
  · exact .inr (analyzeWith_eq_ok_iff.mpr
      ⟨hroots, entered, w₁, w, henter₁, hend, rfl, by rw [hroots₁]⟩)

end Analysis.Entered

/-- **Stopping and going on changes nothing.** Calls with the same roots may be stopped before any
round; when one of them converges, it reports and leaves behind what a single call would that is not
stopped, and one more call changes nothing. Conversely, where a single call converges, each of the
others is stopped or converges to the same. -/
theorem Interrupted.resumed {environment : Environment} {roots : List ε} {a b : Analysis ε τ σ}
    (h : Interrupted environment roots a b) (hresumable : a.world.staff.Only Resumable)
    (hactive : a.world.active = true) :
    (∀ mayProceed fuel stats c,
      b.analyzeWith mayProceed fuel environment roots = some (.ok ⟨.converged, stats⟩, c) →
        (∃ fuel', a.analyze fuel' environment roots = some (.ok ⟨.converged, stats⟩, c)) ∧
        ∀ fuel', c.analyze (fuel' + 1) environment roots = some (.ok ⟨.converged, stats⟩, c)) ∧
    (∀ fuel stats c,
      a.analyze fuel environment roots = some (.ok ⟨.converged, stats⟩, c) →
        ∀ mayProceed,
          (∃ stats' c', b.analyzeWith mayProceed fuel environment roots =
            some (.ok ⟨.cancelled, stats'⟩, c')) ∨
          b.analyzeWith mayProceed fuel environment roots =
            some (.ok ⟨.converged, stats⟩, c)) := by
  have hb := Analysis.Entered.of_interrupted h hresumable
  refine ⟨fun mayProceed fuel stats c hc => ?_, fun fuel stats c hc mayProceed => ?_⟩
  · have hroots := (Analysis.analyzeWith_eq_ok_iff.mp hc).1
    obtain ⟨w, hw, hidle, rfl, rfl⟩ := Analysis.Entered.of_call hb hresumable hc
    exact ⟨hw.analyze_of_idle hresumable hactive hroots (hidle rfl),
      hw.analyze_again hresumable hactive hroots (hidle rfl)⟩
  · exact Analysis.Entered.analyzeWith_stopped_or hb hresumable hactive hc

/-- A token on its way over two links to a listener, which sends it on to a third node. -/
def relay : Analysis Unit Nat Unit where
  world :=
    { engine := { Engine.new default with
        semantics := some
          { shape := fun _ => .value
            discover := fun _ => .addNode fun n => .addNode fun m => .addNode fun k =>
              .link n m fun _ =>
                .listen m
                  (fun _ tokens => .postpone (.deliver k tokens fun _ => .done) fun _ => .done)
                  fun _ => .deliver n (.singleton 5) fun _ => .done } }
      shared := () }

theorem resumed_relay : ∃ b c stats stats',
    relay.analyzeWith (fun i _ => decide (i < 1)) 4 ⟨fun _ => false⟩ [()] =
      some (.ok ⟨.cancelled, stats⟩, b) ∧
    b.analyzeWith (fun _ _ => true) 4 ⟨fun _ => false⟩ [()] =
      some (.ok ⟨.converged, stats'⟩, c) ∧
    (∃ fuel, relay.analyze fuel ⟨fun _ => false⟩ [()] = some (.ok ⟨.converged, stats'⟩, c)) ∧
    c.analyze 1 ⟨fun _ => false⟩ [()] = some (.ok ⟨.converged, stats'⟩, c) := by
  have hfacts : (relay.analyzeWith (fun i _ => decide (i < 1)) 4 ⟨fun _ => false⟩ [()]).bind
      (fun stopped => (stopped.2.analyzeWith (fun _ _ => true) 4 ⟨fun _ => false⟩ [()]).map
        fun done => (stopped.1.toOption.map Report.completion,
          done.1.toOption.map Report.completion)) = some (some .cancelled, some .converged) := by
    decide +kernel
  obtain ⟨⟨answer, b⟩, hb, hrest⟩ := Option.bind_eq_some_iff.mp hfacts
  obtain ⟨⟨answer', c⟩, hc, heq⟩ := Option.map_eq_some_iff.mp hrest
  obtain ⟨hcancelled, hconverged⟩ := Prod.mk.inj heq
  obtain ⟨stats, rfl⟩ := Report.of_completion hcancelled
  obtain ⟨stats', rfl⟩ := Report.of_completion hconverged
  have hresumable : relay.world.staff.Only Resumable :=
    ⟨fun hr => (by cases hr), fun hr => (by cases hr),
      fun hs id => by cases hs; simp [Routine.Only, Resumable]⟩
  have hresumed := (Interrupted.resumed (.stop .start hb) hresumable rfl).1 _ _ _ _ hc
  exact ⟨b, c, stats, stats', hb, hc, hresumed.1, hresumed.2 0⟩

/-- The entity asks for a node, resets the engine, asks for two more, and gives one of them a token,
which one it tells by the handle from before the reset. -/
def sweeping : Analysis Unit Nat Unit where
  world :=
    { engine := { Engine.new default with
        semantics := some
          { shape := fun _ => .value
            discover := fun _ => .addNode fun n => .reset <| .addNode fun p => .addNode fun q =>
              .deliver (if n.index = 1 then p else q) (.singleton 5) fun _ => .done } }
      shared := () }

/-- **A reset makes the engine forget the roots**, so a call that goes on discovers them again, and
ends elsewhere than a single call. -/
theorem reset_repeats_discovery : ∃ b c d stats stats' stats'',
    sweeping.analyzeWith (fun _ _ => false) 1 ⟨fun _ => false⟩ [()] =
      some (.ok ⟨.cancelled, stats⟩, b) ∧
    b.analyze 1 ⟨fun _ => false⟩ [()] = some (.ok ⟨.converged, stats'⟩, c) ∧
    sweeping.analyze 1 ⟨fun _ => false⟩ [()] = some (.ok ⟨.converged, stats''⟩, d) ∧
    c.engine.tokens? ⟨0⟩ = some ∅ ∧ d.engine.tokens? ⟨0⟩ = some (.singleton 5) := by
  have hfacts : (sweeping.analyzeWith (fun _ _ => false) 1 ⟨fun _ => false⟩ [()]).bind
      (fun stopped => (stopped.2.analyze 1 ⟨fun _ => false⟩ [()]).map fun done =>
        (stopped.1.toOption.map Report.completion, done.1.toOption.map Report.completion,
          done.2.engine.tokens? ⟨0⟩)) = some (some .cancelled, some .converged, some ∅) := by
    decide +kernel
  have hsingle : (sweeping.analyze 1 ⟨fun _ => false⟩ [()]).map (fun done =>
      (done.1.toOption.map Report.completion, done.2.engine.tokens? ⟨0⟩)) =
        some (some .converged, some (.singleton 5)) := by decide +kernel
  obtain ⟨⟨answer, b⟩, hb, hrest⟩ := Option.bind_eq_some_iff.mp hfacts
  obtain ⟨⟨answer', c⟩, hc, heq⟩ := Option.map_eq_some_iff.mp hrest
  obtain ⟨⟨answer'', d⟩, hd, heq'⟩ := Option.map_eq_some_iff.mp hsingle
  simp only [Prod.mk.injEq] at heq heq'
  obtain ⟨stats, rfl⟩ := Report.of_completion heq.1
  obtain ⟨stats', rfl⟩ := Report.of_completion heq.2.1
  obtain ⟨stats'', rfl⟩ := Report.of_completion heq'.1
  exact ⟨b, c, d, stats, stats', stats'', hb, hc, hd, heq.2.2, heq'.2⟩

end ValueFlow
