import Mathlib.Control.Monad.Basic
import ValueFlow.Proofs.Engine.Notes

/-!
# How discoveries end

A variant is registered before its discovery runs, and whatever comes of the discovery, it stays
registered. What was noted of all calls tells how far each discovery has come since the engine was
last cleared (`standing`). Discoveries nest, and an engine may be cleared in the midst of them; once
a call is over, none is under way.

* `Moment.Settled`, `Step.settled`: every step keeps the standings in step with the table, and what
  is under way in step with the errands;
* `Calls.discovered`: after any calls, the registered variants are those whose discovery is over. It
  ended well, unless a failure of it was noted;
* `converged_after_failure`: a failed discovery is not repeated, and does not keep later runs from
  converging.
-/

namespace ValueFlow

variable {ε τ σ : Type} [Ordered τ]

/-! ## 1. Standings -/

/-- **How far the discovery of a variant has come.** -/
inductive Standing where
  /-- there is no such variant -/
  | unknown
  | underWay
  | closed (outcome : Except Failure Unit)
  deriving DecidableEq

/-- The standing of a variant after something happened. The end of a discovery counts only for a
variant whose discovery is under way: it may be that of an earlier variant with the same handle,
from before the engine was cleared. -/
def Standing.after (id : VariantId) : Standing → Note τ σ → Standing
  | .unknown, .begun id' => if id' = id then .underWay else .unknown
  | .underWay, .ended id' outcome => if id' = id then .closed outcome else .underWay
  | _, .cleared => .unknown
  | s, _ => s

/-- **The standing of a variant** by what was noted from the beginning. -/
def standing (id : VariantId) (log : List (Note τ σ)) : Standing :=
  log.foldl (Standing.after id) .unknown

namespace Standing

variable {id id' : VariantId}

theorem after_begun_of_ne (hne : id' ≠ id) (s : Standing) :
    s.after id (.begun id' : Note τ σ) = s := by
  cases s with
  | unknown => exact if_neg hne
  | underWay | closed => rfl

theorem after_ended_of_ne (hne : id' ≠ id) (s : Standing) (outcome : Except Failure Unit) :
    s.after id (.ended id' outcome : Note τ σ) = s := by
  cases s with
  | underWay => exact if_neg hne
  | unknown | closed => rfl

theorem after_ended_self (id : VariantId) (s : Standing) (outcome : Except Failure Unit) :
    (s.after id (.ended id outcome : Note τ σ) = .unknown ↔ s = .unknown) ∧
      s.after id (.ended id outcome : Note τ σ) ≠ .underWay := by
  cases s <;> simp [after]

/-- A discovery is over because it was so before, or because its end is noted. -/
theorem eq_of_after {s : Standing} {note : Note τ σ} {outcome : Except Failure Unit}
    (h : s.after id note = .closed outcome) : s = .closed outcome ∨ note = .ended id outcome := by
  unfold after at h
  split at h
  · split at h <;> cases h
  · split at h
    · rename_i hid
      cases h
      exact .inr (hid ▸ rfl)
    · cases h
  · cases h
  · exact .inl h

end Standing

/-- The note is on no discovery, and the engine is not cleared. -/
def Note.Aside : Note τ σ → Prop
  | .sought .. | .sieved .. => True
  | _ => False

theorem Standing.foldl_after_aside {id : VariantId} {log : List (Note τ σ)}
    (h : ∀ note ∈ log, note.Aside) (s : Standing) : log.foldl (Standing.after id) s = s := by
  induction log generalizing s with
  | nil => rfl
  | cons note log ih =>
    have hnote : s.after id note = s := by
      have := h note List.mem_cons_self
      cases note <;> first | exact this.elim | (cases s <;> rfl)
    rw [List.foldl_cons, hnote]
    exact ih (fun note hnote => h note (List.mem_cons_of_mem _ hnote)) s

theorem World.aside_sievings (w : World ε τ σ) (asked : List (Filter σ τ × TokenSet τ)) :
    ∀ note ∈ w.sievings asked, note.Aside := by
  intro note hnote
  obtain ⟨_, -, rfl⟩ := List.mem_map.mp hnote
  trivial

theorem Request.aside_notes {q : Request ε τ σ} (hq : q ≠ .reset) (w : World ε τ σ) :
    ∀ note ∈ q.notes w, note.Aside := by
  cases q with
  | link | deliver | listen =>
    unfold notes
    dsimp only
    split
    · exact w.aside_sievings _
    · exact nofun
  | filterByType =>
    intro note hnote
    cases List.mem_singleton.mp hnote
    trivial
  | reset => exact absurd rfl hq
  | _ => exact nofun

theorem Standing.mem_of_foldl {id : VariantId} {log : List (Note τ σ)} {s : Standing}
    {outcome : Except Failure Unit} (h : log.foldl (Standing.after id) s = .closed outcome) :
    s = .closed outcome ∨ .ended id outcome ∈ log := by
  induction log generalizing s with
  | nil => exact .inl h
  | cons note log ih =>
    rcases ih h with h' | h'
    · rcases eq_of_after h' with h'' | rfl
      · exact .inl h''
      · exact .inr List.mem_cons_self
    · exact .inr (List.mem_cons_of_mem _ h')

/-- A discovery that is over was noted with its outcome. -/
theorem mem_of_standing {id : VariantId} {log : List (Note τ σ)} {outcome : Except Failure Unit}
    (h : standing id log = .closed outcome) : .ended id outcome ∈ log :=
  (Standing.mem_of_foldl h).resolve_left nofun

/-! ## 2. Standings in step with the table -/

/-- The variant is registered. -/
def World.Registered (w : World ε τ σ) (id : VariantId) : Prop :=
  id.index < w.engine.variants.size

theorem standing_append (id : VariantId) (log log' : List (Note τ σ)) :
    standing id (log ++ log') = log'.foldl (Standing.after id) (standing id log) :=
  List.foldl_append

/-- **Standings are in step with the table**, and a discovery that is under way is an errand. -/
structure Moment.Settled (log : List (Note τ σ)) (m : Moment ε τ σ) : Prop where
  registered : ∀ id, standing id log = .unknown ↔ ¬ m.world.Registered id
  underWay : ∀ {id}, standing id log = .underWay → .discovery id ∈ m.errands

namespace Moment.Settled

variable {m m' : Moment ε τ σ} {w : World ε τ σ} {bags : List (Bag WorkItem)}
  {errands : List (Errand τ)} {log log' : List (Note τ σ)} {id : VariantId}

/-- Where no variant comes or goes, standings stay. -/
theorem of_aside (h : m.Settled log) (hlog : ∀ note ∈ log', note.Aside)
    (hvariants : m'.world.engine.variants = m.world.engine.variants)
    (herrands : ∀ id, .discovery id ∈ m.errands → .discovery id ∈ m'.errands) :
    m'.Settled (log ++ log') := by
  have hstanding : ∀ id, standing id (log ++ log') = standing id log := fun id => by
    rw [standing_append, Standing.foldl_after_aside hlog]
  refine ⟨fun id => ?_, fun {id} hway => herrands id (h.underWay (hstanding id ▸ hway))⟩
  rw [hstanding]
  unfold World.Registered
  rw [hvariants]
  exact h.registered id

/-- Only the variants and the errands count. -/
theorem congr (h : m.Settled log) (hvariants : m'.world.engine.variants = m.world.engine.variants)
    (herrands : ∀ id, .discovery id ∈ m.errands → .discovery id ∈ m'.errands) :
    m'.Settled log := by
  have hsame := h.of_aside (List.forall_mem_nil _) hvariants herrands
  rwa [List.append_nil] at hsame

theorem cleared (log : List (Note τ σ)) (w : World ε τ σ) (bags : List (Bag WorkItem))
    (errands : List (Errand τ)) :
    Settled (log ++ [.cleared]) ⟨{ w with engine := w.engine.reset }, bags, errands⟩ := by
  have hstanding : ∀ id, standing id (log ++ [.cleared]) = .unknown := fun id => by
    rw [standing_append]
    cases standing id log <;> rfl
  refine ⟨fun id => ⟨fun _ => Nat.not_lt_zero _, fun _ => hstanding id⟩, fun {id} hway => ?_⟩
  rw [hstanding] at hway
  cases hway

/-- **A discovery begins** when its variant is registered. -/
theorem begun (h : Settled log ⟨w, bags, errands⟩) {w' : World ε τ σ}
    (hsize : w'.engine.variants.size = w.engine.variants.size + 1) :
    Settled (log ++ [.begun w.engine.variants.nextId])
      ⟨w', bags, .discovery w.engine.variants.nextId :: errands⟩ := by
  have hafter : ∀ id, standing id (log ++ [.begun w.engine.variants.nextId]) =
      (standing id log).after id (.begun w.engine.variants.nextId : Note τ σ) := fun id =>
    standing_append id log _
  have hnew : standing w.engine.variants.nextId (log ++ [.begun w.engine.variants.nextId]) =
      .underWay := by
    rw [hafter, (h.registered w.engine.variants.nextId).mpr (Nat.lt_irrefl _)]
    exact if_pos rfl
  have hregistered : ∀ id, w'.Registered id ↔ w.Registered id ∨ w.engine.variants.nextId = id := by
    intro id
    have hindex : w.engine.variants.nextId = id ↔ id.index = w.engine.variants.size := by
      cases id
      simp [VariantTable.nextId, VariantTable.size, eq_comm]
    unfold World.Registered
    rw [hindex]
    omega
  refine ⟨fun id => ?_, fun {id} hway => ?_⟩
  · show _ ↔ ¬ w'.Registered id
    rw [hregistered]
    by_cases hid : w.engine.variants.nextId = id
    · subst hid
      simp [hnew]
    · rw [hafter, Standing.after_begun_of_ne hid, h.registered id]
      simp [hid]
  · by_cases hid : w.engine.variants.nextId = id
    · subst hid
      exact List.mem_cons_self
    · rw [hafter, Standing.after_begun_of_ne hid] at hway
      exact List.mem_cons_of_mem _ (h.underWay hway)

/-- **A discovery ends**, and it is the innermost of those that are under way. -/
theorem ended (h : Settled log ⟨w, bags, .discovery id :: errands⟩)
    (outcome : Except Failure Unit) :
    Settled (log ++ [.ended id outcome]) ⟨w, bags, errands⟩ := by
  have hafter : ∀ id', standing id' (log ++ [.ended id outcome]) =
      (standing id' log).after id' (.ended id outcome : Note τ σ) := fun id' =>
    standing_append id' log _
  have hself := Standing.after_ended_self (τ := τ) (σ := σ) id (standing id log) outcome
  refine ⟨fun id' => ?_, fun {id'} hway => ?_⟩
  · rw [hafter]
    by_cases hid : id = id'
    · subst hid
      exact hself.1.trans (h.registered id)
    · rw [Standing.after_ended_of_ne hid]
      exact h.registered id'
  · rw [hafter] at hway
    by_cases hid : id = id'
    · subst hid
      exact absurd hway hself.2
    · rw [Standing.after_ended_of_ne hid] at hway
      refine (List.mem_cons.mp (h.underWay hway)).resolve_left fun heq => ?_
      cases heq
      exact hid rfl

end Moment.Settled

variable [DecidableEq ε]

omit [DecidableEq ε] in
theorem Entry.aside_execute (item : WorkItem) (w : World ε τ σ) :
    ∀ note ∈ Entry.notes ⟨.execute item, w⟩, note.Aside := by
  cases item with
  | send n =>
    unfold Entry.notes
    dsimp only
    split
    · exact List.forall_mem_nil _
    · exact World.aside_sievings _ _
  | notify | task => exact List.forall_mem_nil _

/-- **Every step keeps standings in step with the table.** -/
theorem Step.settled {m m' : Moment ε τ σ} {d : Deed ε τ σ} {log : List (Note τ σ)}
    (h : Step m d m') (hm : m.Settled log) : m'.Settled (log ++ Entry.notes ⟨d, m.world⟩) := by
  have push : ∀ {errands : List (Errand τ)} {e : Errand τ} (id : VariantId),
      .discovery id ∈ errands → .discovery id ∈ e :: errands := fun _ => List.mem_cons_of_mem _
  have pop : ∀ {errands : List (Errand τ)} {n l tokens} (id : VariantId),
      .discovery id ∈ .hearing n l tokens :: errands → .discovery id ∈ errands := fun _ hmem =>
    (List.mem_cons.mp hmem).resolve_left fun heq => by cases heq
  cases h with
  | @ask w _ _ q =>
    by_cases hq : q = .reset
    · subst hq
      exact .cleared log w _ _
    · exact hm.of_aside (Request.aside_notes hq w) (Request.frame hq w).variants fun _ => id
  | discover _ hfind _ hcreate =>
    subst hcreate
    obtain ⟨_, _, hcreate⟩ := World.create_eq _ hfind
    rw [hcreate]
    exact hm.begun (Array.size_push _)
  | discovered outcome => exact hm.ended outcome
  | skip | send | lose | work => exact hm.of_aside (Entry.aside_execute _ _) rfl fun _ => id
  | hear => exact hm.of_aside (Entry.aside_execute _ _) rfl push
  | heard | giveBack => exact hm.of_aside (List.forall_mem_nil _) rfl pop
  | _ => exact hm.of_aside (List.forall_mem_nil _) rfl fun _ => id

theorem Course.settled {m m' : Moment ε τ σ} {log : List (Entry ε τ σ)} {notes : List (Note τ σ)}
    (h : Course m log m') (hm : m.Settled notes) : m'.Settled (notes ++ notesOf log) := by
  induction h generalizing notes with
  | nil =>
    rw [notesOf_nil, List.append_nil]
    exact hm
  | cons hstep _ ih =>
    rw [notesOf_cons, ← List.append_assoc]
    exact ih (hstep.settled hm)

/-! ## 3. Calls -/

/-- **The calls on an analysis**, in any number and order, and what is noted of all of them. -/
inductive Calls : List (Note τ σ) → Analysis ε τ σ → Prop where
  | new {settings shared a} (h : Analysis.new settings shared = .ok a) : Calls [] a
  /-- something is set from outside -/
  | install {log a} (semantics : Option (Semantics ε τ σ))
      (tokenManager : Option (TokenManager σ τ)) (shared : σ) (active : Bool) : Calls log a →
      Calls log { a with world :=
        { engine := { a.world.engine with semantics, tokenManager }, shared, active } }
  /-- something is asked of the engine from outside -/
  | ask {log a depth r answer w} : Calls log a →
      World.run depth r a.world = some (answer, w) →
      Calls (log ++ World.notes depth r a.world) { a with world := w }
  | analyze {log a b fuel environment roots answer} : Calls log a →
      a.analyze fuel environment roots = some (answer, b) →
      Calls (log ++ a.notes fuel environment roots) b
  | reset {log a} : Calls log a → Calls (log ++ [.cleared]) a.reset

namespace Calls

variable {log : List (Note τ σ)} {a : Analysis ε τ σ}

/-- **Between calls, standings are in step with the table**, and no discovery is under way. -/
theorem settled (h : Calls log a) : Moment.Settled log ⟨a.world, [], []⟩ := by
  induction h with
  | @new settings shared a hnew =>
    have hempty : a.world.engine = .new settings := by
      unfold Analysis.new at hnew
      split at hnew
      · cases hnew
      · cases hnew
        rfl
    refine ⟨fun id => ⟨fun _ => ?_, fun _ => rfl⟩, fun hway => by cases hway⟩
    show ¬ a.world.Registered id
    unfold World.Registered
    rw [hempty]
    exact Nat.not_lt_zero _
  | install _ _ _ _ _ ih => exact ih.congr rfl fun _ => id
  | @ask _ a depth r _ _ _ hrun ih =>
    obtain ⟨m', hcourse, hend⟩ := World.run_course depth r a.world [] []
    obtain rfl := hend _ _ hrun
    exact hcourse.settled ih
  | @analyze log a b fuel environment roots _ _ hanalyze ih =>
    rcases Analysis.analyze_logged hanalyze with ⟨rfl, hnil⟩ | ⟨w, phase, hcourse, hworld⟩
    · rw [Analysis.notes, hnil, notesOf_nil, List.append_nil]
      exact ih
    · have hstarted : Moment.Settled log ⟨a.world.started environment, [], []⟩ :=
        ih.congr rfl fun _ => id
      have hended := hcourse.settled hstarted
      rw [hworld]
      exact hended.congr rfl fun _ => id
  | @reset log a _ _ =>
    have hcleared := Moment.Settled.cleared log a.world [] []
    exact hcleared.congr rfl fun _ => id

theorem isSome_get?_iff (h : Calls log a) (id : VariantId) :
    (a.engine.variants.get? id).isSome ↔ ∃ outcome, standing id log = .closed outcome := by
  have hunknown := h.settled.registered id
  have hregistered : (a.engine.variants.get? id).isSome ↔ a.world.Registered id := by
    simp [VariantTable.get?, World.Registered, VariantTable.size, Analysis.engine]
  rw [hregistered]
  cases hs : standing id log with
  | unknown => exact ⟨fun hr => absurd hr (hunknown.mp hs), nofun⟩
  | underWay => cases h.settled.underWay hs
  | closed outcome =>
    refine ⟨fun _ => ⟨outcome, rfl⟩, fun _ => ?_⟩
    by_contra hr
    cases hs.symm.trans (hunknown.mpr hr)

/-- **How discoveries have ended.** After any calls, whatever they answered, the registered variants
are those whose discovery is over since the engine was last cleared. If no failure of a discovery
was noted, all of them ended well. A variant that is there is answered without running its discovery
again, however that ended. -/
theorem discovered (h : Calls log a) :
    (∀ id, (a.engine.variants.get? id).isSome ↔ ∃ outcome, standing id log = .closed outcome) ∧
    ((∀ id e, .ended id (.error e) ∉ log) →
      ∀ id, (a.engine.variants.get? id).isSome → standing id log = .closed (.ok ())) ∧
    ∀ run entity c id, a.engine.find? entity c = some id →
      (∃ outcome, standing id log = .closed outcome) ∧
        a.world.instantiate run entity c = some (.ok (some id), a.world) := by
  refine ⟨h.isSome_get?_iff, fun hnone id hid => ?_, fun run entity c id hfind => ?_⟩
  · obtain ⟨outcome, ho⟩ := (h.isSome_get?_iff id).mp hid
    cases outcome with
    | ok => exact ho
    | error e => exact absurd (mem_of_standing ho) (hnone id e)
  · obtain ⟨s, hs, hid⟩ := Option.bind_eq_some_iff.mp hfind
    obtain ⟨v, hv, -⟩ := VariantTable.get?_of_find? hid
    refine ⟨(h.isSome_get?_iff _).mp ?_, World.instantiate_known run hs hid⟩
    rw [hv]
    rfl

end Calls

/-! ## 4. Failures -/

/-- The first entity discovers the second, whose discovery fails, and goes on. -/
def nesting : Analysis Bool Nat Unit where
  world :=
    { engine := { Engine.new default with
        semantics := some
          { shape := fun _ => .value
            discover := fun
              | ⟨0⟩ => .instantiate true .empty fun _ => .done
              | _ => .fail (.collaborator "boom") } }
      shared := () }

theorem discovered_nesting : ∃ b stats,
    nesting.analyze 3 ⟨fun _ => false⟩ [false] = some (.ok ⟨.converged, stats⟩, b) ∧
    (∀ id, (b.engine.variants.get? id).isSome ↔
      ∃ outcome, standing id (nesting.notes 3 ⟨fun _ => false⟩ [false]) = .closed outcome) ∧
    standing ⟨0⟩ (nesting.notes 3 ⟨fun _ => false⟩ [false]) = .closed (.ok ()) ∧
    standing ⟨1⟩ (nesting.notes 3 ⟨fun _ => false⟩ [false]) =
      .closed (.error (.collaborator "boom")) := by
  have hdone : (nesting.analyze 3 ⟨fun _ => false⟩ [false]).map
      (fun done => done.1.toOption.map Report.completion) = some (some .converged) := by
    decide +kernel
  obtain ⟨⟨answer, b⟩, hb, hconverged⟩ := Option.map_eq_some_iff.mp hdone
  obtain ⟨stats, rfl⟩ := Report.of_completion hconverged
  have hcalls : Calls ([] ++ nesting.notes 3 ⟨fun _ => false⟩ [false]) b :=
    .analyze (.install _ _ () true (.new (rfl : Analysis.new default () = .ok _))) hb
  exact ⟨b, stats, hb, hcalls.discovered.1, by decide +kernel, by decide +kernel⟩

/-- An entity whose discovery fails. -/
def failing : Analysis Unit Nat Unit where
  world :=
    { engine := { Engine.new default with
        semantics := some
          { shape := fun _ => .value, discover := fun _ => .fail (.collaborator "boom") } }
      shared := () }

/-- **A failed discovery is not repeated**: the run in which it fails answers the failure, and the
next one converges with the variant as it is. -/
theorem converged_after_failure : ∃ b c stats,
    failing.analyze 1 ⟨fun _ => false⟩ [()] = some (.error (.collaborator "boom"), b) ∧
    b.analyze 1 ⟨fun _ => false⟩ [()] = some (.ok ⟨.converged, stats⟩, c) ∧
    (c.variant? () (.forEntry ())).isSome ∧
    standing ⟨0⟩ (failing.notes 1 ⟨fun _ => false⟩ [()] ++ b.notes 1 ⟨fun _ => false⟩ [()]) =
      .closed (.error (.collaborator "boom")) := by
  have hfacts : (failing.analyze 1 ⟨fun _ => false⟩ [()]).bind (fun failed =>
      (failed.2.analyze 1 ⟨fun _ => false⟩ [()]).map fun done =>
        (failed.1, done.1.toOption.map Report.completion,
          (done.2.variant? () (.forEntry ())).isSome,
          standing ⟨0⟩ (failing.notes 1 ⟨fun _ => false⟩ [()] ++
            failed.2.notes 1 ⟨fun _ => false⟩ [()]))) =
      some (.error (.collaborator "boom"), some .converged, true,
        .closed (.error (.collaborator "boom"))) := by decide +kernel
  obtain ⟨⟨answer, b⟩, hb, hrest⟩ := Option.bind_eq_some_iff.mp hfacts
  obtain ⟨⟨answer', c⟩, hc, heq⟩ := Option.map_eq_some_iff.mp hrest
  simp only [Prod.mk.injEq] at heq
  obtain ⟨rfl, hconverged, hvariant, hstanding⟩ := heq
  obtain ⟨stats, rfl⟩ := Report.of_completion hconverged
  exact ⟨b, c, stats, hb, hc, hvariant, hstanding⟩

end ValueFlow
