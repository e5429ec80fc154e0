import Mathlib.Logic.Relation
import ValueFlow.Types.Registry

/-!
# Searching upwards

Whether a type is below another one is found out by a search. It looks at one type after the other
and stops as soon as it sees the one it looks for; the supertypes of a type that it meets for the
first time come next. Types may be above each other in circles.

* `Climb.Leads`: there is a way up from one type to another;
* `Climb.Underway`: what a search has done while it has found nothing;
* `Underway.turn`, `run_eq_true_iff`: each turn keeps this, so the answer tells whether there is a
  way;
* `turns_effort`: the answer comes, and after how many turns it has come;
* `Passes.leads`: a search never leaves the types that are above its start.
-/

namespace ValueFlow.TypeRegistry.Climb

variable {rows : Array (List Nat)} {start target : Nat} {c c' : Climb}

/-! ## 1. Ways up -/

/-- **There is a way up** from one type to another by direct supertypes, perhaps of no steps. -/
def Leads (rows : Array (List Nat)) : Nat → Nat → Prop :=
  Relation.ReflTransGen fun s t => t ∈ above rows s

/-- Where all supertypes are known, ways up from known types lead to known types. -/
theorem Leads.lt_size (hknown : ∀ s, ∀ t ∈ above rows s, t < rows.size)
    (h : Leads rows start target) (hstart : start < rows.size) : target < rows.size := by
  induction h with
  | refl => exact hstart
  | tail _ ht _ => exact hknown _ _ ht

/-! ## 2. One turn -/

/-- **A search that has found nothing so far.** What waits is above the start. What was met is not
the target, and its supertypes were met or wait. -/
structure Underway (rows : Array (List Nat)) (start target : Nat) (c : Climb) : Prop where
  waiting : ∀ t ∈ c.waiting, Leads rows start t
  begun : start ∈ c.waiting ∨ start ∈ c.seen
  missed : target ∉ c.seen
  closed : ∀ t ∈ c.seen, ∀ u ∈ above rows t, u ∈ c.waiting ∨ u ∈ c.seen

theorem underway_start (rows : Array (List Nat)) (start target : Nat) :
    Underway rows start target ⟨[start], []⟩ where
  waiting _ ht := List.mem_singleton.mp ht ▸ .refl
  begun := .inl List.mem_cons_self
  missed := List.not_mem_nil
  closed _ ht := absurd ht List.not_mem_nil

theorem Underway.turn (h : c.Underway rows start target)
    (hturn : c.turn rows target = .inr c') : c'.Underway rows start target := by
  obtain ⟨t, rest, hwaiting, htarget, hc'⟩ := turn_eq_inr hturn
  have hrest : ∀ u ∈ c.waiting, u = t ∨ u ∈ rest := fun u hu =>
    List.mem_cons.mp (hwaiting ▸ hu)
  have hleads : ∀ u ∈ rest, Leads rows start u := fun u hu =>
    h.waiting u (hwaiting ▸ List.mem_cons_of_mem t hu)
  obtain ⟨ht, rfl⟩ | ⟨ht, rfl⟩ := hc'
  · -- the type was met before, so nothing is lost with it
    have hkept : ∀ u, u ∈ c.waiting ∨ u ∈ c.seen → u ∈ rest ∨ u ∈ c.seen := by
      rintro u (hu | hu)
      · exact (hrest u hu).elim (fun e => .inr (e ▸ ht)) .inl
      · exact .inr hu
    exact ⟨hleads, hkept _ h.begun, h.missed, fun s hs u hu => hkept u (h.closed s hs u hu)⟩
  · have hkept : ∀ u, u ∈ c.waiting ∨ u ∈ c.seen →
        u ∈ (above rows t).reverse ++ rest ∨ u ∈ t :: c.seen := by
      rintro u (hu | hu)
      · exact (hrest u hu).elim (fun e => .inr (e ▸ List.mem_cons_self))
          fun hu => .inl (List.mem_append_right _ hu)
      · exact .inr (List.mem_cons_of_mem t hu)
    refine ⟨fun u hu => ?_, hkept _ h.begun, ?_, fun s hs u hu => ?_⟩
    · rcases List.mem_append.mp hu with hu | hu
      · exact (h.waiting t (hwaiting ▸ List.mem_cons_self)).tail (List.mem_reverse.mp hu)
      · exact hleads u hu
    · exact fun hmem => (List.mem_cons.mp hmem).elim (fun e => htarget e.symm) h.missed
    · rcases List.mem_cons.mp hs with rfl | hs
      · exact .inl (List.mem_append_left _ (List.mem_reverse.mpr hu))
      · exact hkept u (h.closed s hs u hu)

/-- **The answer of a turn is right.** -/
theorem Underway.answer (h : c.Underway rows start target) {answer : Bool}
    (hturn : c.turn rows target = .inl answer) :
    answer = true ↔ Leads rows start target := by
  obtain ⟨_ | ⟨t, rest⟩, seen⟩ := c
  · -- nothing waits any more, so everything above the start was met
    have hseen : ∀ {u}, Leads rows start u → u ∈ seen := by
      intro u hu
      induction hu with
      | refl => exact h.begun.resolve_left List.not_mem_nil
      | tail _ hu ih => exact (h.closed _ ih _ hu).resolve_left List.not_mem_nil
    cases hturn
    exact iff_of_false Bool.false_ne_true fun hleads => h.missed (hseen hleads)
  · dsimp only [Climb.turn] at hturn
    split at hturn
    · rename_i ht
      cases hturn
      exact iff_of_true rfl (ht ▸ h.waiting t List.mem_cons_self)
    · split at hturn <;> cases hturn

/-! ## 3. All turns -/

theorem run_of_answer {answer : Bool} (h : c.turn rows target = .inl answer) :
    c.run rows target = answer := by
  rw [run, h]

theorem run_of_turn (h : c.turn rows target = .inr c') :
    c.run rows target = c'.run rows target := by
  rw [run, h]

/-- **A search tells whether there is a way up.** -/
theorem Underway.run_eq_true_iff (h : c.Underway rows start target) :
    c.run rows target = true ↔ Leads rows start target := by
  induction c using run.induct rows target with
  | case1 c answer hturn =>
    rw [run_of_answer hturn]
    exact h.answer hturn
  | case2 c c' hturn ih =>
    rw [run_of_turn hturn]
    exact ih (h.turn hturn)

/-- What comes of a number of turns: an answer, or the search that is left. -/
def turns (rows : Array (List Nat)) (target : Nat) : Nat → Climb → Bool ⊕ Climb
  | 0, c => .inr c
  | k + 1, c =>
    match c.turn rows target with
    | .inl answer => .inl answer
    | .inr c' => turns rows target k c'

/-- **The search ends** after as many turns as are left at most, and one more for the answer. -/
theorem turns_effort (rows : Array (List Nat)) (target : Nat) (c : Climb) :
    turns rows target (c.effort rows + 1) c = .inl (c.run rows target) := by
  induction c using run.induct rows target with
  | case1 c answer hturn => rw [turns, hturn, run_of_answer hturn]
  | case2 c c' hturn ih =>
    rw [← effort_turn hturn, turns, hturn, run_of_turn hturn]
    exact ih

/-- At first there is a turn for the start, and one for every direct supertype of any type. -/
theorem effort_start (rows : Array (List Nat)) (start : Nat) :
    effort rows ⟨[start], []⟩ = 1 + (rows.toList.map List.length).foldr (· + ·) 0 := by
  have hlengths : (List.range rows.size).map (fun t => (above rows t).length) =
      rows.toList.map List.length := by
    refine List.ext_getElem (by simp) fun i hi _ => ?_
    have hlt : i < rows.size := by simpa using hi
    simp [above, hlt]
  have hall : (List.range rows.size).filter (fun t => !([] : List Nat).contains t) =
      List.range rows.size := List.filter_eq_self.mpr fun _ _ => rfl
  unfold effort
  dsimp only
  rw [hall, hlengths, List.length_singleton]

/-- The searches that a search passes through. -/
def Passes (rows : Array (List Nat)) (target : Nat) : Climb → Climb → Prop :=
  Relation.ReflTransGen fun c c' => c.turn rows target = .inr c'

/-- **A search never leaves the types above its start.** -/
theorem Passes.leads (h : Passes rows target ⟨[start], []⟩ c) :
    ∀ t ∈ c.waiting, Leads rows start t := by
  have hunderway : c.Underway rows start target := by
    induction h with
    | refl => exact underway_start rows start target
    | tail _ hturn ih => exact ih.turn hturn
  exact hunderway.waiting

end ValueFlow.TypeRegistry.Climb

namespace ValueFlow.TypeRegistry

/-- **A type is below another one if there is a way up to it.** -/
theorem below_eq_true_iff {r : TypeRegistry} {sub sup : Nat} :
    r.below sub sup = true ↔ Climb.Leads r.tables.supertypes sub sup :=
  (Climb.underway_start r.tables.supertypes sub sup).run_eq_true_iff

end ValueFlow.TypeRegistry
