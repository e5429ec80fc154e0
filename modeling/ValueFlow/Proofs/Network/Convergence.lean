import Mathlib.Data.Set.Finite.Lattice
import ValueFlow.Proofs.Engine.Depth
import ValueFlow.Proofs.Network.Values

/-!
# The analysis of a network ends in the least solution

There are only finitely many entities that can be reached and finitely many tokens that enter at
them, so only finitely many facts can become true of the graph. A round that adds none of them
leaves no work, hence the rounds come to an end, and then the values are the least solution.
-/

namespace ValueFlow.Network

open ValueFlow.Flow

variable {ε τ σ : Type} [Ordered τ]

/-! ## 1. The facts that can become true -/

/-- The tokens that enter somewhere. -/
def alphabet (p : Network ε τ) (roots : List ε) : Set τ :=
  { t | ∃ v ∈ p.candidates roots, t ∈ p.seeds v }

/-- The facts that can become true while the network is analysed. -/
def scope (p : Network ε τ) (roots : List ε) : Set (Fact τ) :=
  { x | x.Within (p.candidates roots).length (p.alphabet roots) }

theorem finite_alphabet (p : Network ε τ) (roots : List ε) : (p.alphabet roots).Finite := by
  have hunion : p.alphabet roots = ⋃ v ∈ { v | v ∈ p.candidates roots }, { t | t ∈ p.seeds v } := by
    ext t
    simp [alphabet]
  rw [hunion]
  refine Set.Finite.biUnion (List.finite_toSet (p.candidates roots)) fun v _ => ?_
  exact List.finite_toSet (p.seeds v).elements

theorem finite_scope (p : Network ε τ) (roots : List ε) : (p.scope roots).Finite :=
  Fact.finite_within _ (p.finite_alphabet roots)

variable [DecidableEq ε] {p : Network ε τ} {roots : List ε} {s : σ}
  {cs : List (Command (Filter σ τ) τ)} {bags : List (Bag WorkItem)} {w : World ε τ σ}

theorem Stage.mem_alphabet (h : Stage p roots s cs bags w) {n : NodeId} {t : τ}
    (ht : t ∈ w.flow.graph.tokens n) : t ∈ p.alphabet roots := by
  obtain ⟨order, hrun⟩ := h.run
  have hsupp := hrun.inv.flow.supported ht
  clear ht
  -- follow the token back to where it was handed over
  induction hsupp with
  | hand hh _ _ =>
    obtain ⟨tokens, hc | hc, ht⟩ := hh
    · obtain ⟨v, hv, rfl⟩ := h.asked _ hc
      exact ⟨v, (h.reachable v (List.mem_of_getElem? hv)).mem_candidates, ht⟩
    · exact (h.asked _ hc).elim
  | flow _ _ _ _ ih => exact ih

theorem Stage.facts_subset (h : Stage p roots s cs bags w) :
    w.flow.graph.facts ⊆ p.scope roots := by
  obtain ⟨order, hrun⟩ := h.run
  intro x hx
  refine Graph.facts_within hrun.inv.flow.wellFormed (fun n hn => ?_) (fun n t => h.mem_alphabet) hx
  exact Nat.lt_of_lt_of_le ((h.nodes n).mp hn) h.length_le

/-! ## 2. The rounds come to an end -/

theorem solveWith_of_idle {run : Runner ε τ σ} (h : p.Complete roots s cs bags w)
    (hidle : w.flow.agenda.next.present = []) (rounds i : Nat) :
    World.solveWith (fun _ w => w.active) run (rounds + 1) i w = some (.ok .converged, w) := by
  have hround : World.round run w = some (.ok none, w) := by
    unfold World.round
    rw [Agenda.startRound_eq_none.mpr hidle]
  simp only [World.solveWith, h.active, if_true, hround]

/-- **The rounds come to an end**: there are no more of them than facts that are still to come, and
two. -/
theorem Complete.solveWith (depth rounds : Nat) :
    ∀ (i : Nat) (cs : List (Command (Filter σ τ) τ)) (w : World ε τ σ),
      p.Complete roots s cs [] w → (p.candidates roots).length ≤ w.entities.length + depth →
      (p.scope roots \ w.flow.graph.facts).ncard + 2 ≤ rounds →
      ∃ cs' w', World.solveWith (fun _ w => w.active) (World.run (depth + 1)) rounds i w =
          some (.ok .converged, w') ∧
        p.Complete roots s cs' [] w' ∧ w'.flow.agenda.next.present = [] ∧
        w.entities <+: w'.entities := by
  induction rounds with
  | zero =>
    intro i cs w _ _ hrounds
    omega
  | succ rounds ih =>
    intro i cs w h hroom hrounds
    rcases h.round hroom with ⟨-, hidle⟩ | ⟨count, cs₁, w₁, hround, h₁, hpre₁, hfacts₁, hidle₁⟩
    · exact ⟨cs, w, solveWith_of_idle h hidle rounds i, h, hidle, List.prefix_rfl⟩
    · obtain ⟨cs₂, h₂, hadv₂, hentities₂⟩ := h₁.condenseIfDue
      have hsolve : World.solveWith (fun _ w => w.active) (World.run (depth + 1)) (rounds + 1) i w =
          World.solveWith (fun _ w => w.active) (World.run (depth + 1)) rounds (i + 1)
            w₁.condenseIfDue.2 := by
        simp only [World.solveWith, h.active, if_true, hround]
      have hpre₂ : w.entities <+: w₁.condenseIfDue.2.entities := hentities₂ ▸ hpre₁
      rw [hsolve]
      by_cases hgrown : w₁.condenseIfDue.2.flow.graph.facts ⊆ w.flow.graph.facts
      · -- nothing is new, so neither the round nor the pass has queued anything
        have hidle₂ : w₁.condenseIfDue.2.flow.agenda.next.present = [] := by
          refine List.eq_nil_of_subset_nil fun item hi => ?_
          rw [← hidle₁ fun _ hx => hgrown (hadv₂.facts hx)]
          exact hadv₂.idle (fun _ hx => hfacts₁ (hgrown hx)) hi
        obtain ⟨rounds, rfl⟩ : ∃ r, rounds = r + 1 := ⟨rounds - 1, by omega⟩
        exact ⟨cs₂, _, solveWith_of_idle h₂ hidle₂ rounds _, h₂, hidle₂, hpre₂⟩
      · have hless := Graph.ncard_missing_lt (p.finite_scope roots)
          (fun _ hx => hadv₂.facts (hfacts₁ hx)) hgrown h₂.toStage.facts_subset
        have hlen := hpre₂.length_le
        obtain ⟨cs₃, w₃, hrun₃, h₃, hidle₃, hpre₃⟩ :=
          ih (i + 1) cs₂ _ h₂ (by omega) (by omega)
        exact ⟨cs₃, w₃, hrun₃, h₃, hidle₃, hpre₂.trans hpre₃⟩

/-! ## 3. From the roots to the last round -/

/-- **All roots are entered.** -/
theorem enterRoots_spec (depth : Nat) (rs : List ε) :
    ∀ (cs : List (Command (Filter σ τ) τ)) (w : World ε τ σ), Stage p roots s cs bags w →
      (∀ r ∈ rs, r ∈ roots) → (p.candidates roots).length ≤ w.entities.length + depth →
      ∃ cs' w', World.enterRoots (World.run depth) rs w = some (rs, .ok (), w') ∧
        p.Explores roots s bags cs w cs' w' ∧ ∀ r ∈ rs, r ∈ w'.entities := by
  induction rs with
  | nil => exact fun cs w h _ _ => ⟨cs, w, rfl, .refl h, nofun⟩
  | cons r rs ih =>
    intro cs w h hroots hroom
    obtain ⟨cs₁, w₁, n, hinst, hex₁, _, hr⟩ := finds p roots s bags depth cs w r (.forEntry r) h
      (.root (hroots r List.mem_cons_self)) hroom
    obtain ⟨cs₂, w₂, henter, hex₂, hrs⟩ := ih cs₁ w₁ hex₁.stage
      (fun x hx => hroots x (List.mem_cons_of_mem _ hx)) (hex₁.room hroom)
    refine ⟨cs₂, w₂, ?_, hex₁.trans hex₂, fun x hx => ?_⟩
    · simp only [World.enterRoots, hinst, henter, Option.map_some]
    · rcases List.mem_cons.mp hx with rfl | hx
      · exact (hex₂.at hr).mem
      · exact hrs x hx

/-- At the start there are no entities, no nodes and no work. -/
theorem stage_start (p : Network ε τ) (roots : List ε) (settings : Settings) (s : σ)
    (environment : Option Environment) :
    Stage p roots s [] [] { engine := { Engine.new settings with
      semantics := some p.semantics, environment, phase := .unstable }, shared := s } where
  run := ⟨settings.bagOrder, .start⟩
  asked := nofun
  shared := rfl
  active := rfl
  semantics := rfl
  unstable := rfl
  plain := ⟨nofun, List.nodup_nil⟩
  nodes _ := Graph.contains_iff
  reachable := nofun
  tasks hid := nomatch hid

/-- The world when no more variants are created. -/
def settled (w : World ε τ σ) : World ε τ σ :=
  { w with engine := { w.engine with phase := .stable } }

/-- **The analysis of a network comes to an end**, and leaves no work. -/
theorem analyze_converges (p : Network ε τ) {settings : Settings} {shared : σ}
    {a : Analysis ε τ σ} (hnew : Analysis.new settings shared = .ok a) (environment : Environment)
    {roots : List ε} (hroots : roots ≠ []) :
    ∃ fuel cs w, (p.install a).analyze fuel environment roots =
        some (.ok ⟨.converged, w.engine.stats⟩, ⟨settled w, Analysis.addAbsent a.roots roots⟩) ∧
      p.Complete roots shared cs [] w ∧ w.flow.agenda.next.present = [] ∧
      ∀ r ∈ roots, r ∈ w.entities := by
  obtain rfl : a = { world := { engine := .new settings, shared } } := by
    unfold Analysis.new at hnew
    split at hnew
    · cases hnew
    · cases hnew
      rfl
  -- as deep as there are entities, and as many rounds as there are facts
  let depth := (p.candidates roots).length + (p.scope roots).ncard + 1
  obtain ⟨cs₁, w₁, henter, hex, hr₁⟩ := enterRoots_spec (depth + 1) roots [] _
    (p.stage_start roots settings shared (some environment)) (fun _ hr => hr) (by omega)
  have h₁ : p.Complete roots shared cs₁ [] w₁ :=
    { hex.stage with covered := fun hv => hex.covered hv (Nat.zero_le _) }
  have hmissing := Set.ncard_le_ncard (Set.sdiff_subset (s := p.scope roots)
    (t := w₁.flow.graph.facts)) (p.finite_scope roots)
  obtain ⟨cs₂, w₂, hsolve, h₂, hidle, hpre⟩ :=
    Complete.solveWith depth (depth + 1) 0 cs₁ w₁ h₁ (by omega) (by omega)
  refine ⟨depth + 1, cs₂, w₂, ?_, h₂, hidle, fun r hr => hpre.subset (hr₁ r hr)⟩
  unfold Analysis.analyze World.solve
  rw [if_neg (by simpa using hroots)]
  simp only [install, henter, hsolve, settled]

/-! ## 4. What is answered in the end -/

/-- **The analysis knows the network**: whatever is asked of it is answered from the one variant and
the one node of an entity. -/
structure Knows (p : Network ε τ) (a : Analysis ε τ σ) : Prop where
  semantics : a.engine.semantics = some p.semantics
  plain : a.engine.variants.Plain
  nodes : ∀ n, a.world.flow.graph.contains n = true ↔ n.index < a.world.entities.length

section Knows

variable {a : Analysis ε τ σ} {v : ε} {n : NodeId}

omit [DecidableEq ε] in
theorem exists_variant_iff (a : Analysis ε τ σ) (v : ε) :
    (∃ x ∈ a.engine.variants.variants, x.entity = v) ↔ v ∈ a.world.entities := by
  unfold World.entities VariantTable.entities
  rw [List.mem_map]
  simp only [Array.mem_def]
  rfl

/-- No context is told from another. -/
theorem Knows.variant?_eq (h : Knows p a) (v : ε) (c : Context ε) :
    a.variant? v c = (a.engine.variants.find? v .empty).bind a.engine.variants.get? := by
  unfold Analysis.variant? Engine.find?
  rw [h.semantics]
  rfl

theorem Knows.variant?_of_at (h : Knows p a) (hv : a.world.At v n) (c : Context ε) :
    a.variant? v c = some ⟨v, .empty, .value n⟩ := by
  rw [h.variant?_eq, h.plain.find? hv]
  exact h.plain.get? hv

theorem Knows.variant?_eq_none (h : Knows p a) (hv : v ∉ a.world.entities) (c : Context ε) :
    a.variant? v c = none := by
  rw [h.variant?_eq, h.plain.find?_eq_none.mpr hv]
  rfl

theorem Knows.isSome_variant? (h : Knows p a) (v : ε) (c : Context ε) :
    (a.variant? v c).isSome ↔ v ∈ a.world.entities := by
  by_cases hv : v ∈ a.world.entities
  · obtain ⟨i, hi⟩ := List.mem_iff_getElem?.mp hv
    rw [h.variant?_of_at (n := ⟨i⟩) hi c]
    exact iff_of_true rfl hv
  · rw [h.variant?_eq_none hv c]
    exact iff_of_false Bool.false_ne_true hv

theorem Knows.valuesFor_of_at (h : Knows p a) (hv : a.world.At v n) (c : Context ε) :
    a.valuesFor v c = a.world.flow.graph.tokens n := by
  have hn : a.engine.flow.graph.contains n = true := (h.nodes n).mpr hv.lt
  unfold Analysis.valuesFor
  rw [h.variant?_of_at hv c]
  show (a.engine.tokens? n).getD ∅ = _
  unfold Engine.tokens?
  rw [if_pos hn]
  rfl

theorem Knows.valuesFor_eq_empty (h : Knows p a) (hv : v ∉ a.world.entities) (c : Context ε) :
    a.valuesFor v c = ∅ := by
  unfold Analysis.valuesFor
  rw [h.variant?_eq_none hv c]
  rfl

/-- Whatever the context, the values of an entity are the tokens of its node. -/
theorem Knows.mem_valuesFor (h : Knows p a) (c : Context ε) (v : ε) (t : τ) :
    t ∈ a.valuesFor v c ↔ ∃ n, a.world.At v n ∧ t ∈ a.world.flow.graph.tokens n := by
  constructor
  · intro ht
    by_cases hv : v ∈ a.world.entities
    · obtain ⟨i, hi⟩ := List.mem_iff_getElem?.mp hv
      rw [h.valuesFor_of_at (n := ⟨i⟩) hi c] at ht
      exact ⟨⟨i⟩, hi, ht⟩
    · rw [h.valuesFor_eq_empty hv c] at ht
      exact absurd ht (SortedSet.not_mem_empty t)
  · intro ⟨n, hn, ht⟩
    rw [h.valuesFor_of_at hn c]
    exact ht

end Knows

/-- **The analysis of a network ends with the least solution of its equations.** Whatever the
settings, it converges with one and the same result as soon as the bound is large enough; those
entities have a variant that can be reached, and their values are the least solution, in every
context. -/
theorem analyze_isLeast (p : Network ε τ) {settings : Settings} {shared : σ}
    {a : Analysis ε τ σ} (hnew : Analysis.new settings shared = .ok a) (environment : Environment)
    {roots : List ε} (hroots : roots ≠ []) :
    ∃ report a',
      (∃ enough, ∀ fuel ≥ enough,
        (p.install a).analyze fuel environment roots = some (.ok report, a')) ∧
      report.completion = .converged ∧
      (∀ v, (∃ x ∈ a'.engine.variants.variants, x.entity = v) ↔ p.Reachable roots v) ∧
      (∀ v c, (a'.variant? v c).isSome ↔ p.Reachable roots v) ∧
      (∀ c, IsLeast { X | p.Solves roots X } fun v => { t | t ∈ a'.valuesFor v c }) ∧
      ∀ v c, ¬ p.Reachable roots v → a'.valuesFor v c = ∅ := by
  obtain ⟨enough, cs, w, hanalyze, h, hidle, hentered⟩ :=
    p.analyze_converges hnew environment hroots
  have hknown := h.reachable_iff hidle hentered
  have hknows : Knows p (Analysis.mk (settled w) (Analysis.addAbsent a.roots roots)) :=
    ⟨h.semantics, h.plain, h.nodes⟩
  refine ⟨_, _, ⟨enough, fun fuel hle => (Analysis.analyze_mono hle _ _ _).eq_some hanalyze⟩, rfl,
    fun v => ?_, fun v c => ?_, fun c => ?_, fun v c hv => ?_⟩
  · exact (exists_variant_iff _ v).trans (hknown v)
  · exact (hknows.isSome_variant? v c).trans (hknown v)
  · have hvalues : (fun v => { t | t ∈ Analysis.valuesFor _ v c }) =
        valuesIn w fun n => { t | t ∈ w.flow.graph.tokens n } :=
      funext fun v => Set.ext fun t => hknows.mem_valuesFor c v t
    rw [hvalues]
    exact h.isLeast hidle hentered
  · exact hknows.valuesFor_eq_empty (fun hmem => hv ((hknown v).mp hmem)) c

/-- A circle of two entities, one of which is connected a round later. What leaves the circle is
filtered, and an entity flows into it that no root leads to. -/
def detour : Network Nat Nat where
  edges := [(0, 1), (1, 0), (1, 2), (3, 0)]
  seeds v := if v = 0 then .ofList [5, 6] else if v = 3 then .singleton 9 else ∅
  rule? v := if v = 2 then some (· != 5) else none
  postponed v := v == 1

theorem analyze_isLeast_detour :
    ∃ a : Analysis Nat Nat Unit, Analysis.new ⟨1, .memoryIntensive, .lifo, 2⟩ () = .ok a ∧
      ∃ report a', (∃ enough, ∀ fuel ≥ enough,
          (detour.install a).analyze fuel ⟨fun _ => false⟩ [0] = some (.ok report, a')) ∧
        report.completion = .converged ∧
        ∀ c, 6 ∈ a'.valuesFor 2 c ∧ 5 ∉ a'.valuesFor 2 c ∧ a'.valuesFor 3 c = ∅ := by
  have hnew : Analysis.new ⟨1, .memoryIntensive, .lifo, 2⟩ () = .ok
      (⟨⟨Engine.new ⟨1, .memoryIntensive, .lifo, 2⟩, (), true⟩, []⟩ : Analysis Nat Nat Unit) := rfl
  obtain ⟨report, a', hrun, hconverged, -, -, hleast, hnone⟩ :=
    analyze_isLeast detour hnew ⟨fun _ => false⟩ (List.cons_ne_nil 0 [])
  refine ⟨_, hnew, report, a', hrun, hconverged, fun c => ?_⟩
  have hsolves : detour.Solves [0] fun v => { t | t ∈ a'.valuesFor v c } := (hleast c).1
  have h₀ : detour.Reachable [0] 0 := .root List.mem_cons_self
  have h₁ : detour.Reachable [0] 1 := .edge h₀ (by decide)
  have h₂ : detour.Reachable [0] 2 := .edge h₁ (by decide)
  have hsix₀ : 6 ∈ a'.valuesFor 0 c := (hsolves 0).ge ⟨h₀, nofun, .inl (by decide)⟩
  have hsix₁ : 6 ∈ a'.valuesFor 1 c :=
    (hsolves 1).ge ⟨h₁, nofun, .inr ⟨0, by decide, h₀, hsix₀⟩⟩
  have hrule : detour.Admits 2 6 := by
    intro rule hr
    cases hr
    rfl
  refine ⟨(hsolves 2).ge ⟨h₂, hrule, .inr ⟨1, by decide, h₁, hsix₁⟩⟩, fun hfive => ?_,
    hnone 3 c fun hthree => ?_⟩
  · exact absurd (((hsolves 2).le hfive).2.1 _ rfl) (by decide)
  · have hbound : ∀ v, detour.Reachable [0] v → v ≤ 2 := by
      intro v hv
      induction hv with
      | root hv => simp at hv; omega
      | edge _ he => simp [detour] at he; omega
    exact absurd (hbound 3 hthree) (by decide)

end ValueFlow.Network
