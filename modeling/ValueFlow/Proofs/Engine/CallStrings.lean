import ValueFlow.Proofs.Engine.Identity

/-!
# Call strings

A context keeps the innermost of the calls that led to it. However deep the context was before, a
first limited call cuts it down, and after as many calls as the limit nothing of it is left: the
limited context then tells these calls and nothing else.

* `pushCalls_limited`, `pushCalls_unlimited`: the calls after any number of limited or unlimited
  ones;
* `popCalls_pushCalls`: unlimited calls can be left again;
* `project_pushCalls_eq_iff`: which contexts a call-sensitive entity tells apart;
* `Story.call_strings`: and so which of its variants are the same.
-/

namespace ValueFlow

/-! ## 1. The end of a list -/

section Ends

variable {α : Type} {k : Nat}

theorem rtake_rtake_append (xs ys : List α) : (xs.rtake k ++ ys).rtake k = (xs ++ ys).rtake k := by
  simp only [List.rtake_eq_reverse_take_reverse, List.reverse_append, List.reverse_reverse,
    List.take_append, List.take_take]
  rw [Nat.min_eq_left (Nat.sub_le k _)]

theorem rtake_append_of_le_length {xs ys : List α} (h : k ≤ ys.length) :
    (xs ++ ys).rtake k = ys.rtake k := by
  rw [List.rtake_eq_reverse_take_reverse, List.reverse_append,
    List.take_append_of_le_length (by rwa [List.length_reverse]),
    ← List.rtake_eq_reverse_take_reverse]

theorem rtake_min_length (xs : List α) : xs.rtake (min k xs.length) = xs.rtake k := by
  unfold List.rtake
  congr 1
  omega

end Ends

/-! ## 2. Entering and leaving calls -/

namespace Context

variable {ε : Type} {k : Nat}

/-- Enter one call after the other. -/
def pushCalls (c : Context ε) (sites : List ε) (k : Nat) : Context ε :=
  sites.foldl (fun c site => c.pushCall site k) c

/-- Leave so many calls. -/
def popCalls (c : Context ε) (n : Nat) : Context ε := popCall^[n] c

theorem pushCall_limited (hk : 1 ≤ k) (c : Context ε) (site : ε) :
    c.pushCall site k = { c with calls := (c.calls ++ [site]).rtake k } := by
  unfold pushCall
  dsimp only
  rw [if_neg (Nat.ne_of_gt hk)]
  rfl

theorem pushCall_unlimited (c : Context ε) (site : ε) :
    c.pushCall site 0 = { c with calls := c.calls ++ [site] } := rfl

theorem popCall_pushCall (c : Context ε) (site : ε) : (c.pushCall site 0).popCall = c := by
  rw [pushCall_unlimited]
  unfold popCall
  dsimp only
  rw [List.dropLast_concat]

/-- **After limited calls a context holds the innermost ones.** The first call cuts it down to the
limit, even if it was deeper before. -/
theorem pushCalls_limited (hk : 1 ≤ k) (c : Context ε) {sites : List ε} (hne : sites ≠ []) :
    c.pushCalls sites k = { c with calls := (c.calls ++ sites).rtake k } := by
  obtain ⟨site, sites, rfl⟩ := List.exists_cons_of_ne_nil hne
  clear hne
  induction sites generalizing c site with
  | nil => exact pushCall_limited hk c site
  | cons next sites ih =>
    calc c.pushCalls (site :: next :: sites) k
        = (c.pushCall site k).pushCalls (next :: sites) k := rfl
      _ = { c with calls := ((c.calls ++ [site]).rtake k ++ next :: sites).rtake k } := by
          rw [ih, pushCall_limited hk]
      _ = { c with calls := (c.calls ++ site :: next :: sites).rtake k } := by
          rw [rtake_rtake_append, List.append_assoc, List.singleton_append]

theorem pushCalls_unlimited (c : Context ε) (sites : List ε) :
    c.pushCalls sites 0 = { c with calls := c.calls ++ sites } := by
  induction sites generalizing c with
  | nil =>
    rw [List.append_nil]
    rfl
  | cons site sites ih =>
    calc c.pushCalls (site :: sites) 0
        = (c.pushCall site 0).pushCalls sites 0 := rfl
      _ = { c with calls := c.calls ++ [site] ++ sites } := by rw [ih, pushCall_unlimited]
      _ = { c with calls := c.calls ++ site :: sites } := by
          rw [List.append_assoc, List.singleton_append]

/-- **Unlimited calls can be left again.** -/
theorem popCalls_pushCalls (c : Context ε) (sites : List ε) :
    (c.pushCalls sites 0).popCalls sites.length = c := by
  induction sites generalizing c with
  | nil => rfl
  | cons site sites ih =>
    calc (c.pushCalls (site :: sites) 0).popCalls (sites.length + 1)
        = (((c.pushCall site 0).pushCalls sites 0).popCalls sites.length).popCall :=
          Function.iterate_succ_apply' popCall _ _
      _ = (c.pushCall site 0).popCall := by rw [ih]
      _ = c := popCall_pushCall c site

/-! ## 3. What is told apart -/

/-- As many calls as the limit leave nothing of what was there before. -/
theorem calls_pushCalls_of_le (hk : 1 ≤ k) (c : Context ε) {sites : List ε}
    (hle : k ≤ sites.length) : (c.pushCalls sites k).calls = sites.rtake k := by
  have hne : sites ≠ [] := List.length_pos_iff.mp (Nat.lt_of_lt_of_le hk hle)
  rw [pushCalls_limited hk c hne]
  exact rtake_append_of_le_length hle

theorem project_callString (c : Context ε) :
    c.project .callString = { calls := c.calls } := rfl

/-- **A call-sensitive entity tells contexts apart by the innermost calls**, whatever was there
before them. -/
theorem project_pushCalls_eq_iff (hk : 1 ≤ k) (c c' : Context ε) {sites sites' : List ε}
    (hle : k ≤ sites.length) (hle' : k ≤ sites'.length) :
    (c.pushCalls sites k).project .callString = (c'.pushCalls sites' k).project .callString ↔
      sites.rtake k = sites'.rtake k := by
  rw [project_callString, project_callString, calls_pushCalls_of_le hk c hle,
    calls_pushCalls_of_le hk c' hle']
  exact ⟨congrArg Context.calls, fun e => by rw [e]⟩

end Context

/-! ## 4. Variants -/

section Variants

variable {ε τ σ : Type} [Ordered τ] [DecidableEq ε] {sensitivity : ε → Sensitivity}
  {log : List (Entry ε τ σ)} {w : World ε τ σ} {entity : ε} {c c' : Context ε}
  {id id' : VariantId}

/-- Variants of one entity are the same if their contexts do not differ for it. -/
theorem World.Told.find?_inj_iff (h : w.Told sensitivity log)
    (hid : w.engine.find? entity c = some id) (hid' : w.engine.find? entity c' = some id') :
    id = id' ↔ c.project (sensitivity entity) = c'.project (sensitivity entity) := by
  constructor
  · rintro rfl
    have hrow := h.rows ▸ h.mem_of_find? hid
    have hrow' := h.rows ▸ h.mem_of_find? hid'
    obtain ⟨v, hv, -, hc⟩ := VariantTable.mem_rows.mp hrow
    obtain ⟨v', hv', -, hc'⟩ := VariantTable.mem_rows.mp hrow'
    cases hv.symm.trans hv'
    exact hc.symm.trans hc'
  · intro hc
    have hfound := h.find?_of_mem (hc ▸ h.mem_of_find? hid)
    exact Option.some.inj (hfound.symm.trans hid')

/-- What a request was answered with is still found. -/
theorem World.Told.find?_of_answer (h : w.Told sensitivity log)
    (hid : (entity, c, id) ∈ answers log) : w.engine.find? entity c = some id :=
  h.find?_of_mem (h.answered hid)

/-- A variant that is there is answered with, and nothing changes. -/
theorem World.instantiate_of_find? (run : Runner ε τ σ)
    (h : w.engine.find? entity c = some id) :
    w.instantiate run entity c = some (.ok (some id), w) := by
  obtain ⟨s, hs, hfind⟩ := Option.bind_eq_some_iff.mp h
  exact World.instantiate_known run hs hfind

end Variants

variable {ε τ σ : Type} [Ordered τ] [DecidableEq ε]

/-- **Call strings.** After limited calls a context holds the innermost of all its calls, after
unlimited ones all of them, and then they can be left again; nothing else of it changes. Contexts
that were entered by as many calls as the limit, or more, are the same to a call-sensitive entity
exactly if the innermost of these calls are, wherever they started. So requests for its variants
are answered with the same variant exactly in that case, and a variant is found again from any
start. -/
theorem Story.call_strings {sensitivity : ε → Sensitivity} {allowed : Deed ε τ σ → Prop}
    {log : List (Entry ε τ σ)} {w : World ε τ σ}
    (h : Story (fun s => s.sensitivity = sensitivity) allowed log w) :
    (∀ (k : Nat) (c : Context ε) (sites : List ε), 1 ≤ k → sites ≠ [] →
      c.pushCalls sites k =
        { c with calls := (c.calls ++ sites).rtake (min k (c.depth + sites.length)) }) ∧
    (∀ (c : Context ε) (sites : List ε),
      c.pushCalls sites 0 = { c with calls := c.calls ++ sites } ∧
        (c.pushCalls sites 0).popCalls sites.length = c) ∧
    ∀ (k : Nat) (c c' : Context ε) (sites sites' : List ε),
      1 ≤ k → k ≤ sites.length → k ≤ sites'.length →
      ((c.pushCalls sites k).project .callString = (c'.pushCalls sites' k).project .callString ↔
        sites.rtake k = sites'.rtake k) ∧
      ∀ entity, sensitivity entity = .callString →
        (∀ id id', (entity, c.pushCalls sites k, id) ∈ answers log →
          (entity, c'.pushCalls sites' k, id') ∈ answers log →
          (id = id' ↔ sites.rtake k = sites'.rtake k)) ∧
        (∀ id id', w.engine.find? entity (c.pushCalls sites k) = some id →
          w.engine.find? entity (c'.pushCalls sites' k) = some id' →
          (id = id' ↔ sites.rtake k = sites'.rtake k)) ∧
        (∀ id run, w.engine.find? entity (c.pushCalls sites k) = some id →
          sites.rtake k = sites'.rtake k →
          w.instantiate run entity (c'.pushCalls sites' k) = some (.ok (some id), w)) := by
  have htold := h.holds (lasting_told sensitivity)
  refine ⟨fun k c sites hk hne => ?_,
    fun c sites => ⟨c.pushCalls_unlimited sites, c.popCalls_pushCalls sites⟩,
    fun k c c' sites sites' hk hle hle' => ?_⟩
  · rw [Context.pushCalls_limited hk c hne, Context.depth, ← List.length_append,
      rtake_min_length]
  · have hiff := Context.project_pushCalls_eq_iff hk c c' hle hle'
    refine ⟨hiff, fun entity hentity => ?_⟩
    rw [← hentity] at hiff
    have hsame : ∀ id id', w.engine.find? entity (c.pushCalls sites k) = some id →
        w.engine.find? entity (c'.pushCalls sites' k) = some id' →
        (id = id' ↔ sites.rtake k = sites'.rtake k) := fun id id' hid hid' =>
      (htold.find?_inj_iff hid hid').trans hiff
    refine ⟨fun id id' hid hid' => ?_, hsame, fun id run hid hcalls => ?_⟩
    · exact hsame id id' (htold.find?_of_answer hid) (htold.find?_of_answer hid')
    · refine World.instantiate_of_find? run (htold.find?_of_mem ?_)
      rw [← hiff.mpr hcalls]
      exact htold.mem_of_find? hid

/-- Every entity is told apart by the calls. -/
def callSensitive : Semantics Nat Nat Unit where
  sensitivity _ := .callString
  shape _ := .value
  discover _ := .done

def callSensitiveWorld : World Nat Nat Unit where
  engine := { Engine.new default with semantics := some callSensitive }
  shared := ()

/-- A context that is deeper than the limit of the calls to come. -/
def deepContext : Context Nat := (Context.forEntry 9).pushCalls [3, 4, 5] 0

/-- An entity is asked for behind the calls `1` and `2`, from two contexts, and the other way
round. -/
def threeCallers : Routine Nat Nat Unit :=
  .instantiate 0 (deepContext.pushCalls [1, 2] 2) fun _ =>
    .instantiate 0 (Context.empty.pushCalls [7, 1, 2] 2) fun _ =>
      .instantiate 0 (deepContext.pushCalls [2, 1] 2) fun _ => .done

theorem call_strings_threeCallers :
    ∃ w, Story (fun s => s.sensitivity = callSensitive.sensitivity) (fun _ => True)
        (World.deeds 2 threeCallers callSensitiveWorld) w ∧
      answers (World.deeds 2 threeCallers callSensitiveWorld) =
        [(0, deepContext.pushCalls [1, 2] 2, ⟨0⟩), (0, Context.empty.pushCalls [7, 1, 2] 2, ⟨0⟩),
          (0, deepContext.pushCalls [2, 1] 2, ⟨1⟩)] ∧
      deepContext.pushCalls [6] 2 =
        { deepContext with calls := (deepContext.calls ++ [6]).rtake (min 2 (4 + 1)) } ∧
      (deepContext.pushCalls [1, 2] 0).popCalls 2 = deepContext ∧
      ((⟨0⟩ : VariantId) = ⟨0⟩ ↔ [1, 2].rtake 2 = [7, 1, 2].rtake 2) ∧
      ((⟨0⟩ : VariantId) = ⟨1⟩ ↔ [1, 2].rtake 2 = [2, 1].rtake 2) := by
  obtain ⟨⟨_, w⟩, hrun⟩ := Option.isSome_iff_exists.mp
    (by decide +kernel : (World.run 2 threeCallers callSensitiveWorld).isSome = true)
  have hinstalled : Story (fun s => s.sensitivity = callSensitive.sensitivity) (fun _ => True) []
      callSensitiveWorld := .install callSensitive (.new default () true) rfl
  have hstory := hinstalled.call (fun _ _ => trivial) hrun
  rw [List.nil_append] at hstory
  have hanswers : answers (World.deeds 2 threeCallers callSensitiveWorld) =
      [(0, deepContext.pushCalls [1, 2] 2, ⟨0⟩), (0, Context.empty.pushCalls [7, 1, 2] 2, ⟨0⟩),
        (0, deepContext.pushCalls [2, 1] 2, ⟨1⟩)] := by decide +kernel
  obtain ⟨hlimited, hunlimited, hsame⟩ := hstory.call_strings
  obtain ⟨-, hother⟩ := hsame 2 deepContext .empty [1, 2] [7, 1, 2] (by decide) (by decide)
    (by decide)
  obtain ⟨-, hturned⟩ := hsame 2 deepContext deepContext [1, 2] [2, 1] (by decide) (by decide)
    (by decide)
  refine ⟨w, hstory, hanswers, hlimited 2 deepContext [6] (by decide) (by decide),
    (hunlimited deepContext [1, 2]).2, (hother 0 rfl).1 _ _ ?_ ?_, (hturned 0 rfl).1 _ _ ?_ ?_⟩ <;>
    simp [hanswers]

end ValueFlow
