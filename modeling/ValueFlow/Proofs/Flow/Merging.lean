import ValueFlow.Proofs.Flow.Hearing

/-!
# What fusing does to the work that waits

The parts of a new component had work of their own, and each lacks tokens that the others have. What
waited for the parts waits for the whole, less what the whole has by now, and nothing is left behind
for the parts (`waits_send_part`). Every part makes up for what it lacked: it passes that on to its
successors outside and to its listeners, and to nobody else (`waits_send_outside`,
`waits_notify_fuse`). Inside nothing is passed on, since all nodes have the same tokens.
-/

namespace ValueFlow

variable {φ τ : Type} [Ordered τ]

namespace Flow

open ValueFlow.Graph

variable {f : Flow φ τ} {cycle : List NodeId} {r s m n : NodeId} {t : τ}

section Fusable

variable (h : Fusable f.graph cycle)
include h

theorem Fusable.contains_of_rep (hm : f.graph.representative m ∈ cycle) : f.graph.contains m := by
  refine Classical.byContradiction fun hc => ?_
  rw [representative_of_not_contains hc] at hm
  exact hc (h.contains m hm)

/-- A node outside has the same companions as before. -/
theorem representative_fuse_eq_iff (htwo : 2 ≤ cycle.length)
    (hs : f.graph.representative s ∉ cycle) :
    (f.fuse cycle).graph.representative n = f.graph.representative s ↔
      f.graph.representative n = f.graph.representative s := by
  rw [graph_fuse htwo]
  exact representative_joined_eq_iff h (least_mem_of_two_le htwo) hs

/-- A node outside has the tokens it had. -/
theorem tokens_fuse_of_not_mem (hn : f.graph.representative n ∉ cycle) :
    (f.fuse cycle).graph.tokens n = f.graph.tokens n :=
  SortedSet.ext fun _ => by rw [mem_tokens_fuse h, if_neg hn]

/-! ## 1. Work for the parts -/

/-- Inside a new component nothing is passed on: whoever would get a token has it. -/
theorem not_passesTo_part (hr : r ∈ cycle) (ht : ∃ r ∈ cycle, t ∈ f.graph.tokens r) :
    ¬ (f.fuse cycle).graph.PassesTo m (.send r) t := by
  rintro (⟨s, -, e, hnew⟩ | ⟨_, -, e⟩)
  · have hrep : r = (f.fuse cycle).graph.representative s := WorkItem.send.inj e
    rw [mem_tokens_fuse h] at hnew
    rw [representative_fuse h] at hrep
    by_cases hs : f.graph.representative s ∈ cycle
    · rw [if_pos hs] at hnew
      exact hnew ht
    · rw [if_neg hs] at hrep
      exact hs (hrep ▸ hr)
  · cases e

/-- **What waited for the parts waits for the whole**, less the tokens of the whole. -/
theorem waits_send_part (htwo : 2 ≤ cycle.length) (hr : r ∈ cycle) :
    (f.fuse cycle).agenda.Waits (.send r) t ↔ r = least cycle ∧
      (∃ r ∈ cycle, f.agenda.Waits (.send r) t) ∧ ¬ ∃ r ∈ cycle, t ∈ f.graph.tokens r := by
  rw [waits_fuse h htwo]
  constructor
  · rintro (⟨-, hne⟩ | ⟨e, hnew, hwaits⟩ | ⟨ht, m, -, -, -, hpass⟩)
    · exact absurd rfl (hne r hr)
    · exact ⟨WorkItem.send.inj e, hwaits, fun ⟨r, hr, ht⟩ => hnew r hr ht⟩
    · exact absurd hpass (not_passesTo_part h hr ht)
  · rintro ⟨rfl, hwaits, hnew⟩
    exact .inr (.inl ⟨rfl, fun r hr ht => hnew ⟨r, hr, ht⟩, hwaits⟩)

/-! ## 2. Work for the others -/

theorem passesTo_outside (htwo : 2 ≤ cycle.length) (hs : f.graph.representative s ∉ cycle) :
    (f.fuse cycle).graph.PassesTo m (.send (f.graph.representative s)) t ↔
      t ∉ f.graph.tokens s ∧
        ∃ s' ∈ f.graph.successors m, f.graph.representative s' = f.graph.representative s := by
  have htokens : ∀ {s'}, f.graph.representative s' = f.graph.representative s →
      (f.fuse cycle).graph.tokens s' = f.graph.tokens s := fun {s'} e => by
    rw [tokens_fuse_of_not_mem h (e ▸ hs), tokens_congr e]
  constructor
  · rintro (⟨s', hs', e, hnew⟩ | ⟨_, -, e⟩)
    · rw [successors_fuse] at hs'
      have e := (representative_fuse_eq_iff h htwo hs).mp (WorkItem.send.inj e).symm
      exact ⟨htokens e ▸ hnew, s', hs', e⟩
    · cases e
  · rintro ⟨hnew, s', hs', e⟩
    rw [← htokens e] at hnew
    rw [← (representative_fuse_eq_iff h htwo hs).mpr e]
    exact .inl ⟨s', by rwa [successors_fuse], rfl, hnew⟩

/-- **Every part makes up for what it lacked**: a node outside gets what it does not have either. -/
theorem waits_send_outside (htwo : 2 ≤ cycle.length) (hs : f.graph.representative s ∉ cycle) :
    (f.fuse cycle).agenda.Waits (.send (f.graph.representative s)) t ↔
      f.agenda.Waits (.send (f.graph.representative s)) t ∨
        (∃ r ∈ cycle, t ∈ f.graph.tokens r) ∧ t ∉ f.graph.tokens s ∧
          ∃ m, f.graph.representative m ∈ cycle ∧ t ∉ f.graph.tokens m ∧
            ∃ s' ∈ f.graph.successors m,
              f.graph.representative s' = f.graph.representative s := by
  have hother : ∀ r ∈ cycle, WorkItem.send (f.graph.representative s) ≠ .send r :=
    fun r hr e => hs (WorkItem.send.inj e ▸ hr)
  rw [waits_fuse h htwo]
  simp only [passesTo_outside h htwo hs]
  constructor
  · rintro (⟨hwaits, -⟩ | ⟨e, -⟩ | ⟨ht, m, -, hm, hlacks, hnew, hsucc⟩)
    · exact .inl hwaits
    · exact absurd e (hother _ (least_mem_of_two_le htwo))
    · exact .inr ⟨ht, hnew, m, hm, hlacks, hsucc⟩
  · rintro (hwaits | ⟨ht, hnew, m, hm, hlacks, hsucc⟩)
    · exact .inl ⟨hwaits, hother⟩
    · exact .inr (.inr ⟨ht, m, h.contains_of_rep hm, hm, hlacks, hnew, hsucc⟩)

end Fusable

/-! ## 3. No work is lost -/

/-- **Fusing moves work without loss.** The smallest of the handles leads all nodes of the former
components, and all have the tokens of all. For the other handles nothing waits any more; for the
new leader waits what waited for any of them, less those tokens, and nothing is recorded if that is
nothing. What a former component lacked goes to the nodes outside that it has links to, unless they
have it, and to its listeners; other tokens do not come to them. Other nodes stay as they are. -/
theorem fuse_moves_work {inHand : WorkItem → Prop} (hg : f.graph.WellFormed)
    (hkept : f.agenda.Kept inHand) (htwo : 2 ≤ cycle.length) (hnodup : cycle.Nodup)
    (hcycle : ∀ r ∈ cycle, f.graph.contains r ∧ f.graph.representative r = r ∧
      f.graph.filter? r = none) :
    ∃ target ∈ cycle, ∃ all : TokenSet τ,
      (∀ r ∈ cycle, target.index ≤ r.index) ∧
      (∀ t, t ∈ all ↔ ∃ r ∈ cycle, t ∈ f.graph.tokens r) ∧
      (∀ m, f.graph.representative m ∈ cycle →
        (f.fuse cycle).graph.representative m = target ∧ (f.fuse cycle).graph.tokens m = all) ∧
      (∀ r ∈ cycle, r ≠ target → (f.fuse cycle).agenda.delta? (.send r) = none) ∧
      (∀ t, (f.fuse cycle).agenda.Waits (.send target) t ↔
        (∃ r ∈ cycle, f.agenda.Waits (.send r) t) ∧ t ∉ all) ∧
      ((∀ t, ¬ (f.fuse cycle).agenda.Waits (.send target) t) →
        (f.fuse cycle).agenda.delta? (.send target) = none) ∧
      (∀ m s, f.graph.representative m ∈ cycle → s ∈ f.graph.successors m →
        f.graph.representative s ∉ cycle → ∀ t,
          (f.agenda.Waits (.send (f.graph.representative s)) t ∨
            (t ∈ all ∧ t ∉ f.graph.tokens m ∧ t ∉ f.graph.tokens s) →
              (f.fuse cycle).agenda.Waits (.send (f.graph.representative s)) t) ∧
          ((f.fuse cycle).agenda.Waits (.send (f.graph.representative s)) t →
            f.agenda.Waits (.send (f.graph.representative s)) t ∨
              (t ∈ all ∧ t ∉ f.graph.tokens s))) ∧
      (∀ m l, f.graph.representative m ∈ cycle → l ∈ f.graph.listeners m → ∀ t,
        (f.fuse cycle).agenda.Waits (.notify m l) t ↔
          f.agenda.Waits (.notify m l) t ∨ (t ∈ all ∧ t ∉ f.graph.tokens m)) ∧
      (∀ n, f.graph.representative n ∉ cycle →
        (f.fuse cycle).graph.representative n = f.graph.representative n ∧
        (f.fuse cycle).graph.tokens n = f.graph.tokens n ∧
        (f.fuse cycle).graph.filter? n = f.graph.filter? n) ∧
      (f.fuse cycle).graph.WellFormed ∧ (f.fuse cycle).agenda.Kept inHand := by
  have h : Fusable f.graph cycle :=
    ⟨hg.grouped, hnodup, fun r hr => (hcycle r hr).1, fun r hr => isFusable_iff.mpr (hcycle r hr).2⟩
  have hkept' : (f.fuse cycle).agenda.Kept inHand := lasting_fuse (Agenda.lasting_kept _) hkept
  have hmem := least_mem_of_two_le htwo
  have hall : ∀ t, t ∈ allTokens f.graph cycle ↔ ∃ r ∈ cycle, t ∈ f.graph.tokens r :=
    fun t => h.mem_allTokens
  refine ⟨least cycle, hmem, allTokens f.graph cycle, fun r => least_le, hall,
    fun m hm => ⟨?_, SortedSet.ext fun t => ?_⟩,
    fun r hr hne => hkept'.delta?_eq_none fun t ht => ?_, fun t => ?_, hkept'.delta?_eq_none,
    fun m s hm hs hout t => ?_, fun m l hm hl t => ?_,
    fun n hn => ⟨?_, tokens_fuse_of_not_mem h hn, filter?_fuse⟩, wellFormed_fuse h hg, hkept'⟩
  · rw [representative_fuse h, if_pos hm]
  · rw [mem_tokens_fuse h, if_pos hm, hall]
  · exact hne ((waits_send_part h htwo hr).mp ht).1
  · rw [waits_send_part h htwo hmem, hall]
    exact and_iff_right rfl
  · rw [waits_send_outside h htwo hout, hall]
    exact ⟨Or.imp_right fun ⟨ht, hlacks, hnew⟩ => ⟨ht, hnew, m, hm, hlacks, s, hs, rfl⟩,
      Or.imp_right fun ⟨ht, hnew, _⟩ => ⟨ht, hnew⟩⟩
  · rw [waits_notify_fuse h htwo, hall]
    tauto
  · rw [representative_fuse h, if_neg hn]

/-- A component of two nodes with a listener and a link to the last node, and a first node. The
component has 5, the first node has 6, and more waits for both. -/
def busyFlow : Flow Unit Nat :=
  let sieve (_ : Unit) (tokens : TokenSet Nat) := tokens
  let nodes : Flow Unit Nat :=
    ((((addNode (.empty .fifo) none).2.addNode none).2.addNode none).2.addNode none).2
  let pair := (((nodes.fuse [⟨2⟩, ⟨1⟩]).subscribe sieve ⟨2⟩ ⟨0⟩).link sieve ⟨2⟩ ⟨3⟩).2
  let filled := ((pair.deliver sieve ⟨2⟩ (.singleton 5)).2.deliver sieve ⟨0⟩ (.singleton 6)).2
  ((filled.offer ⟨1⟩ (.ofList [6, 7])).2.offer ⟨0⟩ (.ofList [5, 8])).2

theorem sturdy_busyFlow : Sturdy (fun _ tokens => tokens) busyFlow := by
  have hnodes : Sturdy (fun _ tokens => tokens)
      ((((addNode (.empty .fifo : Flow Unit Nat) none).2.addNode none).2.addNode none).2.addNode
        none).2 :=
    ((((sturdy_empty .fifo).addNode none).addNode none).addNode none).addNode none
  have hfusable : Fusable _ [⟨2⟩, ⟨1⟩] :=
    ⟨hnodes.wellFormed.grouped, by decide, by decide, by decide⟩
  have hpair := ((hnodes.fuse hfusable).subscribe ⟨2⟩ ⟨0⟩).link
    (show Graph.contains _ ⟨2⟩ by decide +kernel) (show Graph.contains _ ⟨3⟩ by decide +kernel)
  have hfilled := (hpair.deliver (n := ⟨2⟩) (by decide +kernel) (.singleton 5)).deliver (n := ⟨0⟩)
    (by decide +kernel) (.singleton 6)
  exact (hfilled.offer (by decide +kernel) _).offer (by decide +kernel) _

theorem fuse_moves_work_busyFlow :
    let f := busyFlow.fuse [⟨1⟩, ⟨0⟩]
    f.graph.representative ⟨2⟩ = ⟨0⟩ ∧ 6 ∈ f.graph.tokens ⟨2⟩ ∧
      busyFlow.agenda.Waits (.send ⟨1⟩) 7 ∧ f.agenda.delta? (.send ⟨1⟩) = none ∧
      f.agenda.Waits (.send ⟨0⟩) 7 ∧ ¬ f.agenda.Waits (.send ⟨0⟩) 6 ∧
      f.agenda.Waits (.send ⟨3⟩) 6 ∧ f.agenda.Waits (.notify ⟨2⟩ ⟨0⟩) 6 ∧
      f.graph.tokens ⟨3⟩ = busyFlow.graph.tokens ⟨3⟩ := by
  have htwo : 2 ≤ ([⟨1⟩, ⟨0⟩] : List NodeId).length := by decide
  obtain ⟨target, -, all, hmin, hall, hmembers, hparts, hwhole, -, hout, hlisten, hother, -⟩ :=
    fuse_moves_work sturdy_busyFlow.wellFormed sturdy_busyFlow.kept htwo (by decide)
      (by decide +kernel)
  have hzero : target = ⟨0⟩ := by
    have hle := hmin ⟨0⟩ (by decide)
    rcases target with ⟨index⟩
    exact congrArg NodeId.mk (Nat.le_zero.mp hle)
  subst hzero
  have hsix : 6 ∈ all := (hall 6).mpr ⟨⟨0⟩, by decide, by decide +kernel⟩
  have hwaits : busyFlow.agenda.Waits (.send ⟨1⟩) 7 :=
    ⟨.ofList [6, 7], by decide +kernel, by decide⟩
  have hmember := hmembers ⟨2⟩ (by decide +kernel)
  have hnew : 7 ∉ all := fun h => by
    rw [hall] at h
    revert h
    decide +kernel
  exact ⟨hmember.1, hmember.2 ▸ hsix, hwaits, hparts ⟨1⟩ (by decide) (by decide),
    (hwhole 7).mpr ⟨⟨⟨1⟩, by decide, hwaits⟩, hnew⟩, fun h => ((hwhole 6).mp h).2 hsix,
    (hout ⟨2⟩ ⟨3⟩ (by decide +kernel) (by decide +kernel) (by decide +kernel) 6).1
      (.inr ⟨hsix, by decide +kernel, by decide +kernel⟩),
    (hlisten ⟨2⟩ ⟨0⟩ (by decide +kernel) (by decide +kernel) 6).mpr
      (.inr ⟨hsix, by decide +kernel⟩),
    (hother ⟨3⟩ (by decide +kernel)).2.1⟩

end Flow

end ValueFlow
