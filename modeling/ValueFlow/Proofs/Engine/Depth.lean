import ValueFlow.Engine.Analysis

/-!
# A larger depth never changes an answer

Whatever runs collaborators gives up when they nest too deep or work too long. If it does not give
up, the answer is final: with more room it is the same (`World.run_mono`, `Analysis.analyze_mono`).
So there is one answer of an analysis, and it does not depend on the bound.
-/

namespace ValueFlow

variable {ε τ σ : Type} [Ordered τ]

/-- The first gives up, or both give the same answer. -/
def AtMost {α : Type} (x y : Option α) : Prop := x = none ∨ x = y

namespace AtMost

variable {α β : Type} {x y : Option α}

theorem none : AtMost none y := .inl rfl

theorem refl (x : Option α) : AtMost x x := .inr rfl

theorem eq_some (h : AtMost x y) {a : α} (hx : x = some a) : y = some a := by
  rcases h with h | h
  · rw [hx] at h
    cases h
  · rw [← h, hx]

theorem map (h : AtMost x y) (f : α → β) : AtMost (x.map f) (y.map f) := by
  rcases h with h | h
  · rw [h]
    exact .none
  · rw [h]
    exact .refl _

end AtMost

/-- `run'` gives all answers that `run` gives. -/
def Runner.AtMost (run run' : Runner ε τ σ) : Prop :=
  ∀ r w, ValueFlow.AtMost (run r w) (run' r w)

variable {run run' : Runner ε τ σ}

namespace World

/-! ## 1. Requests -/

theorem execute_mono (h : Runner.AtMost run run') (item : WorkItem) (w : World ε τ σ) :
    AtMost (execute run item w) (execute run' item w) := by
  cases item with
  | send n => exact .refl _
  | notify n l =>
    unfold execute
    dsimp only
    split
    · exact .refl _
    · rename_i tokens w₁ _
      split
      · exact .refl _
      · rename_i react _
        rcases h (react n tokens) w₁ with e | e
        · rw [e]
          exact .none
        · rw [e]
          exact .refl _
  | task id =>
    unfold execute
    dsimp only
    split
    · exact .refl _
    · rename_i task _
      rcases h task { w with engine := { w.engine with tasks := w.engine.tasks.erase id } } with
        e | e
      · rw [e]
        exact .none
      · rw [e]
        exact .refl _

theorem executeBag_mono (h : Runner.AtMost run run') (count : Nat) :
    ∀ (bag : Bag WorkItem) (executed : Nat) (w : World ε τ σ),
      AtMost (executeBag run count bag executed w) (executeBag run' count bag executed w) := by
  induction count with
  | zero => exact fun _ _ _ => .refl _
  | succ count ih =>
    intro bag executed w
    unfold executeBag
    split
    · exact .refl _
    · rename_i item rest _
      rcases execute_mono h item w with e | e
      · rw [e]
        exact .none
      · rw [e]
        split
        · exact .none
        · exact ih _ _ _
        · exact .refl _

theorem round_mono (h : Runner.AtMost run run') (w : World ε τ σ) :
    AtMost (round run w) (round run' w) := by
  unfold round
  split
  · exact .refl _
  · exact (executeBag_mono h _ _ _ _).map _

variable [DecidableEq ε]

theorem instantiate_mono (h : Runner.AtMost run run') (entity : ε) (c : Context ε)
    (w : World ε τ σ) :
    AtMost (instantiate run entity c w) (instantiate run' entity c w) := by
  unfold instantiate
  split
  · exact .refl _
  · rename_i s _
    dsimp only
    split
    · exact .refl _
    · split
      · exact .refl _
      · generalize w.create entity (c.project (s.sensitivity entity)) (s.shape entity) = created
        rcases h (s.discover created.1) created.2 with e | e
        · rw [e]
          exact .none
        · rw [e]
          exact .refl _

end World

/-! ## 2. Routines -/

variable [DecidableEq ε]

theorem Routine.runWith_mono (h : Runner.AtMost run run') (r : Routine ε τ σ) :
    ∀ w, AtMost (r.runWith run w) (r.runWith run' w) := by
  induction r with
  | done | fail => exact fun _ => .refl _
  | instantiate entity c next ih =>
    intro w
    unfold runWith
    rcases World.instantiate_mono h entity c w with e | e
    · rw [e]
      exact .none
    · rw [e]
      split
      · exact .none
      · exact ih _ _
  | round next ih =>
    intro w
    unfold runWith
    rcases World.round_mono h w with e | e
    · rw [e]
      exact .none
    · rw [e]
      split
      · exact .none
      · exact ih _ _
  | postpone task next _ ih => exact fun w => ih _ _
  | listen n react next _ ih => exact fun w => ih _ _
  | find entity c next ih => exact fun w => ih _ _
  | addNode next ih => exact fun w => ih _ _
  | link source target next ih => exact fun w => ih _ _
  | deliver n tokens next ih => exact fun w => ih _ _
  | offer n tokens next ih => exact fun w => ih _ _
  | setFilter n f next ih => exact fun w => ih _ _
  | filterByType n type next ih => exact fun w => ih _ _
  | condense next ih => exact fun w => ih _ _
  | condenseIfDue next ih => exact fun w => ih _ _
  | reset next ih => exact fun w => ih _
  | observe next ih => exact fun w => ih _ _
  | consult next ih => exact fun w => ih _ _
  | replace shared next ih => exact fun w => ih _
  | setActive active next ih => exact fun w => ih _

/-- **A larger depth never changes an answer.** -/
theorem World.run_mono {depth depth' : Nat} (hle : depth ≤ depth') :
    Runner.AtMost (World.run (ε := ε) (τ := τ) (σ := σ) depth) (World.run depth') := by
  induction depth generalizing depth' with
  | zero => exact fun _ _ => .none
  | succ depth ih =>
    obtain ⟨more, rfl⟩ : ∃ more, depth' = more + 1 := ⟨depth' - 1, by omega⟩
    exact fun r w => r.runWith_mono (ih (by omega)) w

/-! ## 3. Analyses -/

theorem World.enterRoots_mono (h : Runner.AtMost run run') (roots : List ε) :
    ∀ w, AtMost (World.enterRoots run roots w) (World.enterRoots run' roots w) := by
  induction roots with
  | nil => exact fun _ => .refl _
  | cons root roots ih =>
    intro w
    unfold World.enterRoots
    rcases World.instantiate_mono h root (.forEntry root) w with e | e
    · rw [e]
      exact .none
    · rw [e]
      split
      · exact .none
      · exact .refl _
      · exact (ih _).map _

omit [DecidableEq ε] in
theorem World.solveWith_mono (h : Runner.AtMost run run') (mayProceed : Nat → World ε τ σ → Bool)
    {rounds rounds' : Nat} (hle : rounds ≤ rounds') :
    ∀ i w, AtMost (World.solveWith mayProceed run rounds i w)
      (World.solveWith mayProceed run' rounds' i w) := by
  induction rounds generalizing rounds' with
  | zero => exact fun _ _ => .none
  | succ rounds ih =>
    obtain ⟨more, rfl⟩ : ∃ more, rounds' = more + 1 := ⟨rounds' - 1, by omega⟩
    intro i w
    unfold World.solveWith
    split
    · rcases World.round_mono h w with e | e
      · rw [e]
        exact .none
      · rw [e]
        split
        · exact .none
        · exact .refl _
        · exact .refl _
        · exact ih (by omega) _ _
    · exact .refl _

/-- **The answer of an analysis is final.** -/
theorem Analysis.analyze_mono {fuel fuel' : Nat} (hle : fuel ≤ fuel') (environment : Environment)
    (roots : List ε) (a : Analysis ε τ σ) :
    AtMost (a.analyze fuel environment roots) (a.analyze fuel' environment roots) := by
  have hrun : Runner.AtMost (World.run (ε := ε) (τ := τ) (σ := σ) fuel) (World.run fuel') :=
    World.run_mono hle
  unfold Analysis.analyze
  split
  · exact .refl _
  · extract_lets _ _ w
    rcases World.enterRoots_mono hrun roots w with e | e
    · rw [e]
      exact .none
    · rw [e]
      split
      · exact .none
      · split
        · exact .refl _
        · rename_i w _
          rcases World.solveWith_mono hrun (fun _ w => w.active) hle 0 w with e | e
          · unfold World.solve
            rw [e]
            exact .none
          · unfold World.solve
            rw [e]
            exact .refl _

end ValueFlow
