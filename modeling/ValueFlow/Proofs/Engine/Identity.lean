import Mathlib.Data.List.DropRight
import ValueFlow.Proofs.Engine.Deeds
import ValueFlow.Proofs.Variant.Rows

/-!
# Which variant is which

A variant is asked for by an entity and a context, of which only that counts which the language is
sensitive to for the entity. The first request creates it, before its discovery runs; so whatever
the discovery asks for, itself included, finds it. Since the engine was new or was reset, the
discoveries that were begun are the rows of the table, one for each variant and in their order.

* `World.Told`, `lasting_told`: the table tells what the deeds since the last reset tell;
* `Story.variant_identity`: requests are answered with the same variant exactly if they ask for the
  same entity in contexts that do not differ for it.
-/

namespace ValueFlow

variable {ε τ σ : Type} [Ordered τ]

/-! ## 1. What the deeds tell -/

/-- What was done since the last reset. -/
def recent (log : List (Entry ε τ σ)) : List (Entry ε τ σ) := log.rtakeWhile fun x => !x.isReset

def Entry.discovery? (x : Entry ε τ σ) : Option (VariantId × ε × Context ε) :=
  match x.deed with
  | .discover id entity c => some (id, entity, c)
  | _ => none

def Entry.answer? (x : Entry ε τ σ) : Option (ε × Context ε × VariantId) :=
  match x.deed with
  | .answer entity c id => some (entity, c, id)
  | _ => none

/-- **The discoveries since the last reset**, in the order in which they were begun: the variant,
its entity and its context. -/
def discoveries (log : List (Entry ε τ σ)) : List (VariantId × ε × Context ε) :=
  (recent log).filterMap Entry.discovery?

/-- **The answers since the last reset** to requests for variants: the entity and the context that
were asked for, and the variant. -/
def answers (log : List (Entry ε τ σ)) : List (ε × Context ε × VariantId) :=
  (recent log).filterMap Entry.answer?

section Telling

variable {l l' : List (Entry ε τ σ)} {x : Entry ε τ σ}

theorem recent_concat (h : x.isReset = false) : recent (l ++ [x]) = recent l ++ [x] :=
  List.rtakeWhile_concat_pos _ _ _ (by rw [h]; rfl)

theorem recent_append (h : ∀ x ∈ l', x.isReset = false) : recent (l ++ l') = recent l ++ l' := by
  induction l' using List.reverseRecOn with
  | nil => simp
  | append_singleton l' x ih =>
    have hx : x.isReset = false := h x (by simp)
    rw [← List.append_assoc, recent_concat hx, ih fun y hy => h y (by simp [hy]),
      List.append_assoc]

theorem recent_reset (h : x.isReset = true) : recent (l ++ [x]) = [] :=
  List.rtakeWhile_concat_neg _ _ _ (by rw [h]; simp)

theorem discoveries_append (h : ∀ x ∈ l', x.isReset = false) :
    discoveries (l ++ l') = discoveries l ++ l'.filterMap Entry.discovery? := by
  unfold discoveries
  rw [recent_append h, List.filterMap_append]

theorem answers_append (h : ∀ x ∈ l', x.isReset = false) :
    answers (l ++ l') = answers l ++ l'.filterMap Entry.answer? := by
  unfold answers
  rw [recent_append h, List.filterMap_append]

end Telling

/-! ## 2. What the table tells -/

/-- **The table tells what the deeds tell.** -/
structure World.Told (sensitivity : ε → Sensitivity) (l : List (Entry ε τ σ))
    (w : World ε τ σ) : Prop where
  fits : ∀ {s}, w.engine.semantics = some s → s.sensitivity = sensitivity
  /-- without a language there was no discovery -/
  idle : w.engine.semantics = none → w.engine.variants.rows = []
  rows : discoveries l = w.engine.variants.rows
  distinct : w.engine.variants.Distinct
  answered : ∀ {entity c id}, (entity, c, id) ∈ answers l →
    (id, entity, c.project (sensitivity entity)) ∈ discoveries l

namespace World.Told

variable {sensitivity : ε → Sensitivity} {l l' : List (Entry ε τ σ)} {w w' : World ε τ σ}
  {x : Entry ε τ σ}

/-- Only the variants and the language count. -/
theorem congr (h : w.Told sensitivity l) (hvariants : w'.engine.variants = w.engine.variants)
    (hsemantics : w'.engine.semantics = w.engine.semantics) : w'.Told sensitivity l where
  fits hs := h.fits (hsemantics.symm.trans hs)
  idle hs := hvariants ▸ h.idle (hsemantics.symm.trans hs)
  rows := hvariants ▸ h.rows
  distinct := hvariants ▸ h.distinct
  answered := h.answered

/-- So do only discoveries and answers. -/
theorem concat (h : w.Told sensitivity l) (hreset : x.isReset = false)
    (hdiscovery : x.discovery? = none) (hanswer : x.answer? = none) :
    w.Told sensitivity (l ++ [x]) := by
  have hfree : ∀ y ∈ [x], y.isReset = false := by simpa using hreset
  have hdiscoveries : discoveries (l ++ [x]) = discoveries l := by
    simp [discoveries_append hfree, hdiscovery]
  have hanswers : answers (l ++ [x]) = answers l := by simp [answers_append hfree, hanswer]
  exact
    { fits := h.fits
      idle := h.idle
      rows := hdiscoveries.trans h.rows
      distinct := h.distinct
      answered := by
        rw [hanswers, hdiscoveries]
        exact h.answered }

theorem reset (h : w.Told sensitivity l) (hrecent : recent l' = []) :
    World.Told sensitivity l' { w with engine := w.engine.reset } where
  fits := h.fits
  idle _ := rfl
  rows := by
    unfold discoveries
    rw [hrecent]
    rfl
  distinct := List.nodup_nil
  answered hmem := by
    unfold answers at hmem
    rw [hrecent] at hmem
    cases hmem

variable [DecidableEq ε] {entity : ε} {c : Context ε} {id : VariantId} {s : Semantics ε τ σ}

theorem mem_of_find? (h : w.Told sensitivity l) (hfind : w.engine.find? entity c = some id) :
    (id, entity, c.project (sensitivity entity)) ∈ discoveries l := by
  obtain ⟨s, hs, hfound⟩ := Option.bind_eq_some_iff.mp hfind
  rw [h.rows, ← h.fits hs]
  exact VariantTable.mem_rows_of_find? hfound

theorem find?_of_mem (h : w.Told sensitivity l)
    (hmem : (id, entity, c.project (sensitivity entity)) ∈ discoveries l) :
    w.engine.find? entity c = some id := by
  rw [h.rows] at hmem
  cases hs : w.engine.semantics with
  | none => simp [h.idle hs] at hmem
  | some s =>
    rw [← h.fits hs] at hmem
    exact Option.bind_eq_some_iff.mpr
      ⟨s, hs, (VariantTable.find?_eq_some_iff h.distinct).mpr hmem⟩

omit [DecidableEq ε] in
theorem ask (h : w.Told sensitivity l) (q : Request ε τ σ) :
    (q.perform w).Told sensitivity (l ++ [⟨.ask q, w⟩]) := by
  by_cases hq : q = .reset
  · subst hq
    exact h.reset (recent_reset rfl)
  · have hframe := Request.frame hq w
    have hreset : Entry.isReset ⟨.ask q, w⟩ = false := by
      cases q with
      | reset => exact absurd rfl hq
      | _ => rfl
    exact (h.congr hframe.variants (congrArg Setup.semantics hframe.setup)).concat hreset rfl rfl

theorem discover (h : w.Told sensitivity l) (hs : w.engine.semantics = some s)
    (hfind : w.engine.variants.find? entity (c.project (s.sensitivity entity)) = none)
    {created : VariantId × World ε τ σ}
    (hcreate : w.create entity (c.project (s.sensitivity entity)) (s.shape entity) = created) :
    created.2.Told sensitivity
      (l ++ [⟨.discover created.1 entity (c.project (s.sensitivity entity)), w⟩]) := by
  obtain ⟨_, layout, heq⟩ := create_eq (s.shape entity) hfind
  rw [heq] at hcreate
  subst hcreate
  have hfree : ∀ x ∈ [(⟨.discover w.engine.variants.nextId entity
      (c.project (s.sensitivity entity)), w⟩ : Entry ε τ σ)], x.isReset = false := by
    simp [Entry.isReset, Deed.isReset]
  exact
    { fits := h.fits
      idle := fun hnone => nomatch hs.symm.trans hnone
      rows := by
        rw [discoveries_append hfree, h.rows, VariantTable.rows_push]
        rfl
      distinct := h.distinct.push hfind _ _
      answered := fun hmem => by
        rw [answers_append hfree] at hmem
        rw [discoveries_append hfree]
        simp only [List.filterMap_cons, Entry.answer?, List.filterMap_nil, List.append_nil] at hmem
        exact List.mem_append_left _ (h.answered hmem) }

theorem answer (h : w.Told sensitivity l) (hfind : w.engine.find? entity c = some id) :
    w.Told sensitivity (l ++ [⟨.answer entity c id, w⟩]) := by
  have hfree : ∀ x ∈ [(⟨.answer entity c id, w⟩ : Entry ε τ σ)], x.isReset = false := by
    simp [Entry.isReset, Deed.isReset]
  have hdiscoveries : discoveries (l ++ [⟨.answer entity c id, w⟩]) = discoveries l := by
    rw [discoveries_append hfree]
    simp [Entry.discovery?]
  refine ⟨h.fits, h.idle, hdiscoveries.trans h.rows, h.distinct, fun hmem => ?_⟩
  rw [hdiscoveries]
  rw [answers_append hfree] at hmem
  rcases List.mem_append.mp hmem with hmem | hmem
  · exact h.answered hmem
  · cases List.mem_singleton.mp hmem
    exact h.mem_of_find? hfind

end World.Told

variable [DecidableEq ε]

/-- **The table goes on to tell what the deeds tell.** -/
theorem lasting_told (sensitivity : ε → Sensitivity) :
    Lasting (fun s : Semantics ε τ σ => s.sensitivity = sensitivity)
      (fun l m => m.world.Told sensitivity l) where
  step h hstep := by
    cases hstep with
    | ask q => exact h.ask q
    | discover hs hfind _ hcreate => exact h.discover hs hfind hcreate
    | answer hfind => exact h.answer hfind
    | look => exact h.concat rfl rfl rfl
    | _ =>
      refine World.Told.concat ?_ rfl rfl rfl
      exact h.congr rfl rfl
  new settings shared active := by
    refine ⟨nofun, fun _ => rfl, rfl, List.nodup_nil, fun hmem => ?_⟩
    cases hmem
  install h hs := by
    refine ⟨fun heq => ?_, nofun, h.rows, h.distinct, h.answered⟩
    cases heq
    exact hs
  equip _ _ _ _ _ h := h.congr rfl rfl
  restart h := h.reset rfl
  outside h := h

/-! ## 3. Identity -/

namespace World

variable {w w' : World ε τ σ} {entity : ε} {c : Context ε} {id : VariantId}

/-- A request that is answered with a variant is on the list, unless the engine was reset while the
variant was being discovered. -/
theorem mem_answers_of_instantiate {run : Runner ε τ σ} (deeds : Chronicler ε τ σ)
    (h : w.instantiate run entity c = some (.ok (some id), w'))
    (hfree : ∀ x ∈ w.instantiateDeeds run deeds entity c, x.isReset = false)
    (l : List (Entry ε τ σ)) :
    (entity, c, id) ∈ answers (l ++ w.instantiateDeeds run deeds entity c) := by
  rw [answers_append hfree]
  refine List.mem_append_right _ (List.mem_filterMap.mpr ⟨⟨.answer entity c id, w'⟩, ?_, rfl⟩)
  cases hs : w.engine.semantics with
  | none => cases (instantiate_unconfigured run hs entity c).symm.trans h
  | some s =>
    cases hfind : w.engine.variants.find? entity (c.project (s.sensitivity entity)) with
    | some found =>
      cases (instantiate_known run hs hfind).symm.trans h
      rw [instantiateDeeds_known run deeds hs hfind]
      exact List.mem_singleton_self _
    | none =>
      cases hstable : w.engine.isStable with
      | true => cases (instantiate_stable run hs hfind hstable).symm.trans h
      | false =>
        rw [instantiate_new run hs hfind hstable rfl] at h
        rw [instantiateDeeds_new run deeds hs hfind hstable rfl] at hfree ⊢
        obtain ⟨⟨outcome, w₁⟩, hdone, heq⟩ := Option.map_eq_some_iff.mp h
        cases outcome with
        | error => cases heq
        | ok =>
          cases heq
          rw [hdone] at hfree ⊢
          refine List.mem_cons_of_mem _ (List.mem_append_right _ (List.mem_cons_of_mem _ ?_))
          rw [if_neg]
          · exact List.mem_singleton_self _
          · intro hreset
            obtain ⟨x, hx, hxreset⟩ := List.any_eq_true.mp hreset
            have := hfree x (List.mem_cons_of_mem _ (List.mem_append_left _ hx))
            simp [this] at hxreset

/-- On a stable engine a request for a variant is answered with what is there. -/
theorem instantiate_of_stable (hstable : w.engine.isStable = true) (run : Runner ε τ σ) (entity : ε)
    (c : Context ε) :
    w.instantiate run entity c = some
      (if w.engine.semantics.isSome then .ok (w.engine.find? entity c)
        else .error (.unconfigured .semantics), w) := by
  unfold Engine.find?
  cases hs : w.engine.semantics with
  | none => exact instantiate_unconfigured run hs entity c
  | some s =>
    cases hfind : w.engine.variants.find? entity (c.project (s.sensitivity entity)) with
    | some id =>
      rw [instantiate_known run hs hfind]
      simp [hfind]
    | none =>
      rw [instantiate_stable run hs hfind hstable]
      simp [hfind]

end World

/-- **Which variant is which.** Of the requests since the engine was new or was reset, however they
nest, two are answered with the same variant exactly if they name the same entity in contexts that
do not differ for it, and the variant has that entity and what counts of that context. The
discoveries that were begun are those of all variants, one for each and in the order of their
handles, which are dense. A variant is found exactly if its discovery was begun. On a stable engine
nothing is created and nothing changes. -/
theorem Story.variant_identity {sensitivity : ε → Sensitivity} {allowed : Deed ε τ σ → Prop}
    {log : List (Entry ε τ σ)} {w : World ε τ σ}
    (h : Story (fun s => s.sensitivity = sensitivity) allowed log w) :
    (∀ entity c id entity' c' id',
      (entity, c, id) ∈ answers log → (entity', c', id') ∈ answers log →
        (id = id' ↔ entity = entity' ∧
          c.project (sensitivity entity) = c'.project (sensitivity entity))) ∧
    (∀ entity c id, (entity, c, id) ∈ answers log →
      ∃ v, w.engine.variants.get? id = some v ∧ v.entity = entity ∧
        v.context = c.project (sensitivity entity)) ∧
    (∀ depth entity c id w',
      w.instantiate (World.run depth) entity c = some (.ok (some id), w') →
      (∀ x ∈ w.instantiateDeeds (World.run depth) (World.deeds depth) entity c,
        x.isReset = false) →
      (entity, c, id) ∈ answers
        (log ++ w.instantiateDeeds (World.run depth) (World.deeds depth) entity c)) ∧
    (discoveries log).map Prod.fst =
      (List.range w.engine.variants.size).map VariantId.mk ∧
    (∀ entity c id, w.engine.find? entity c = some id ↔
      (id, entity, c.project (sensitivity entity)) ∈ discoveries log) ∧
    (w.engine.isStable = true → ∀ run entity c,
      w.instantiate run entity c = some
        (if w.engine.semantics.isSome then .ok (w.engine.find? entity c)
          else .error (.unconfigured .semantics), w)) := by
  have htold := h.holds (lasting_told sensitivity)
  refine ⟨fun entity c id entity' c' id' hid hid' => ?_, fun entity c id hid => ?_, ?_, ?_, ?_, ?_⟩
  · have hrow := htold.rows ▸ htold.answered hid
    have hrow' := htold.rows ▸ htold.answered hid'
    constructor
    · rintro rfl
      obtain ⟨v, hv, rfl, hc⟩ := VariantTable.mem_rows.mp hrow
      obtain ⟨v', hv', rfl, hc'⟩ := VariantTable.mem_rows.mp hrow'
      cases hv.symm.trans hv'
      exact ⟨rfl, hc.symm.trans hc'⟩
    · rintro ⟨rfl, hc⟩
      exact htold.distinct.eq hrow (hc ▸ hrow')
  · exact VariantTable.mem_rows.mp (htold.rows ▸ htold.answered hid)
  · exact fun depth entity c id w' hdone hfree =>
      World.mem_answers_of_instantiate (World.deeds depth) hdone hfree log
  · rw [htold.rows]
    exact w.engine.variants.map_fst_rows
  · exact fun entity c id => ⟨htold.mem_of_find?, htold.find?_of_mem⟩
  · exact fun hstable run entity c => World.instantiate_of_stable hstable run entity c

/-- The first entity asks for itself again and for the second one, which is told apart by the root
that the exploration started from. -/
def selfCaller : Semantics Nat Nat Unit where
  sensitivity entity := if entity = 0 then .insensitive else { entry := true }
  shape _ := .value
  discover id :=
    if id = ⟨0⟩ then
      .instantiate 0 (.forEntry 5) fun _ => .instantiate 1 (.forEntry 5) fun _ => .done
    else .done

def selfCallerWorld : World Nat Nat Unit where
  engine := { Engine.new default with semantics := some selfCaller }
  shared := ()

/-- Both entities are asked for, the second one for two roots and twice for the second of them. -/
def twoRoots : Routine Nat Nat Unit :=
  .instantiate 0 .empty fun _ => .instantiate 1 (.forEntry 6) fun _ =>
    .instantiate 1 { entry := some 6 } fun _ => .done

theorem variant_identity_selfCaller :
    ∃ w, Story (fun s => s.sensitivity = selfCaller.sensitivity) (fun _ => True)
        (World.deeds 3 twoRoots selfCallerWorld) w ∧
      answers (World.deeds 3 twoRoots selfCallerWorld) =
        [(0, .forEntry 5, ⟨0⟩), (1, .forEntry 5, ⟨1⟩), (0, .empty, ⟨0⟩), (1, .forEntry 6, ⟨2⟩),
          (1, { entry := some 6 }, ⟨2⟩)] ∧
      ((⟨1⟩ : VariantId) = ⟨2⟩ ↔ 1 = 1 ∧
        (Context.forEntry 5).project (selfCaller.sensitivity 1) =
          (Context.forEntry 6).project (selfCaller.sensitivity 1)) ∧
      (∃ v, w.engine.variants.get? ⟨2⟩ = some v ∧ v.entity = 1 ∧
        v.context = (Context.forEntry 6).project (selfCaller.sensitivity 1)) ∧
      (discoveries (World.deeds 3 twoRoots selfCallerWorld)).map Prod.fst =
        (List.range w.engine.variants.size).map VariantId.mk := by
  obtain ⟨⟨_, w⟩, hrun⟩ := Option.isSome_iff_exists.mp
    (by decide +kernel : (World.run 3 twoRoots selfCallerWorld).isSome = true)
  have hinstalled : Story (fun s => s.sensitivity = selfCaller.sensitivity) (fun _ => True) []
      selfCallerWorld := .install selfCaller (.new default () true) rfl
  have hstory := hinstalled.call (fun _ _ => trivial) hrun
  rw [List.nil_append] at hstory
  have hanswers : answers (World.deeds 3 twoRoots selfCallerWorld) =
      [(0, .forEntry 5, ⟨0⟩), (1, .forEntry 5, ⟨1⟩), (0, .empty, ⟨0⟩), (1, .forEntry 6, ⟨2⟩),
        (1, { entry := some 6 }, ⟨2⟩)] := by decide +kernel
  obtain ⟨hsame, hstored, -, hdense, -⟩ := hstory.variant_identity
  refine ⟨w, hstory, hanswers, hsame 1 (.forEntry 5) _ 1 (.forEntry 6) _ ?_ ?_,
    hstored 1 (.forEntry 6) _ ?_, hdense⟩ <;> simp [hanswers]

end ValueFlow
