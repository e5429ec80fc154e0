import ValueFlow.Proofs.Flow.Histories

/-!
# Whom waiting tokens are addressed to

Tokens for a node wait under the name of its representative. That name can go out of date: a later
pass may fuse the representative into another component, several times over. So whatever waits for
a component that is fused must be filed anew, and what the fused nodes pass on must go to those who
lead at that moment.

* `Graph.Leader` holds of the nodes that may be addressed: they exist and represent themselves;
* `Flow.Addressed` says that only such nodes are addressed, and every operation keeps it so
  (`Addressed.perform`), whatever filters let through.

Links may lead to missing nodes, as long as nothing is passed along them: an operation that is not
refused has only followed links of components that are closed (`Graph.Closed`).
-/

namespace ValueFlow

variable {φ τ : Type} [Ordered τ]

/-! ## 1. Leaders and closed components -/

namespace Graph

variable {g : Graph φ τ} {n m r s : NodeId}

/-- The node exists and represents itself. -/
def Leader (g : Graph φ τ) (n : NodeId) : Prop := g.contains n ∧ g.representative n = n

theorem Grouped.leader_rep (hg : g.Grouped) (hn : g.contains n) : g.Leader (g.representative n) :=
  ⟨hg.contains_rep hn, hg.rep_rep⟩

/-- All links of the component of `r` lead to nodes. -/
def Closed (g : Graph φ τ) (r : NodeId) : Prop :=
  ∀ m, g.contains m → g.representative m = r → ∀ s ∈ g.successors m, g.contains s

theorem Grouped.closed_of_dangling (hg : g.Grouped) (hd : g.dangling r = false) : g.Closed r := by
  rintro m hm rfl s hs
  unfold dangling at hd
  rw [List.any_eq_false] at hd
  have hnone := hd m (hg.mem_component_rep hm)
  simp only [Bool.not_eq_true, List.any_eq_false] at hnone
  simpa using hnone s hs

end Graph

namespace Flow

open ValueFlow.Graph

variable {sieve : φ → TokenSet τ → TokenSet τ} {f f' : Flow φ τ} {op : Operation φ τ}
  {n source target : NodeId} {tokens : TokenSet τ} {roots : List NodeId}

/-! ## 2. What is not refused -/

theorem closed_of_deliver? (hg : f.graph.Grouped) (h : (f.deliver? sieve n tokens).isSome)
    (hout : ¬ (f.graph.outbound sieve (f.graph.representative n)
      (f.gain sieve n tokens)).isEmpty) : f.graph.Closed (f.graph.representative n) := by
  refine hg.closed_of_dangling ?_
  unfold deliver? at h
  dsimp only at h
  split at h
  · cases h
  · rename_i hguard
    simp_all

theorem contains_of_link? (h : (f.link? sieve source target).isSome)
    (hlinked : ¬ f.graph.linked source target)
    (hout : ¬ (f.graph.outbound sieve (f.graph.representative source)
      (f.graph.tokens source)).isEmpty) : f.graph.contains target := by
  unfold link? at h
  dsimp only at h
  split at h
  · cases h
  · rename_i hguard
    unfold Graph.tokens at hout
    simp_all

/-- A pass that is not refused has visited closed components only. -/
theorem closed_of_condense? (hg : f.graph.Grouped) (h : (f.condense? roots).isSome) {r : NodeId}
    (hr : f.graph.Reached roots r) : f.graph.Closed r := by
  have hs := Survey.run_found hg roots
  have hmark := (Survey.number_run hg roots (n := r)).mpr hr
  have hids : r ∈ (Survey.run f.graph roots).graph.ids := by
    rw [mem_ids, contains_of_unmarked hs.unmarked]
    exact hr.contains hg
  have hdangling : (Survey.run f.graph roots).graph.dangling r = false := by
    unfold condense? at h
    dsimp only at h
    split at h
    · cases h
    · rename_i hguard
      rw [Bool.not_eq_true, List.any_eq_false] at hguard
      have hnone := hguard r hids
      unfold Survey.number at hmark
      simp_all
  intro m hm hrm s hsm
  have hclosed := (hg.of_unmarked hs.unmarked).closed_of_dangling hdangling
  have hcs := hclosed m ((contains_of_unmarked hs.unmarked).trans hm)
    ((representative_of_unmarked hs.unmarked).trans hrm) s
    ((successors_of_unmarked hs.unmarked).symm ▸ hsm)
  exact (contains_of_unmarked hs.unmarked).symm.trans hcs

/-! ## 3. Operations -/

/-- **Only leaders are addressed**, and never for nothing. -/
structure Addressed (f : Flow φ τ) : Prop where
  grouped : f.graph.Grouped
  kept : f.agenda.Kept fun _ => True
  leader : ∀ {n t}, f.agenda.Waits (.send n) t → f.graph.Leader n

namespace Addressed

theorem empty (order : BagOrder) : Addressed (.empty order : Flow φ τ) where
  grouped := wellFormed_empty.grouped
  kept := Agenda.kept_empty order _
  leader hw := absurd hw (Agenda.waits_empty order _ _)

theorem of_delta? (h : f.Addressed) (hd : f.agenda.delta? (.send n) = some tokens) :
    f.graph.Leader n := by
  obtain ⟨t, ht⟩ := h.kept.exists_waits hd
  exact h.leader ht

theorem of_agenda {a : Agenda τ} (h : f.Addressed) (hkept : a.Kept fun _ => True)
    (hwaits : ∀ n t, a.Waits (.send n) t → f.agenda.Waits (.send n) t ∨ f.graph.Leader n) :
    Addressed { f with agenda := a } :=
  ⟨h.grouped, hkept, fun hw => (hwaits _ _ hw).elim h.leader id⟩

/-- Nothing changes where nodes and their representatives stay. -/
theorem of_graph {g : Graph φ τ} (h : f.Addressed) (hg : g.Grouped)
    (hcontains : ∀ {n}, f.graph.contains n → g.contains n)
    (hrep : ∀ n, g.representative n = f.graph.representative n) :
    Addressed { f with graph := g } := by
  refine ⟨hg, h.kept, fun {n _} hw => ?_⟩
  obtain ⟨hc, hn⟩ := h.leader hw
  exact ⟨hcontains hc, (hrep n).trans hn⟩

theorem deliver (h : f.Addressed) (hn : f.graph.contains n)
    (hclosed : ¬ (f.graph.outbound sieve (f.graph.representative n)
      (f.gain sieve n tokens)).isEmpty → f.graph.Closed (f.graph.representative n)) :
    (f.deliver sieve n tokens).2.Addressed := by
  have hgrouped : (f.deliver sieve n tokens).2.graph.Grouped := grouped_deliver h.grouped n tokens
  refine ⟨hgrouped, growing_deliver (Agenda.lasting_kept _).toGrowing h.kept, fun {k t} hw => ?_⟩
  rcases (waits_deliver_outbound h.grouped hn).mp hw with hw | ⟨ht, m, hm, hrm, hpass⟩
  · obtain ⟨hc, hk⟩ := h.leader hw
    exact ⟨contains_deliver.trans hc, representative_deliver.trans hk⟩
  · have hfollowed := hclosed fun he => SortedSet.isEmpty_eq_true.mp he t ht
    rcases hpass with ⟨s, hs, e, -⟩ | ⟨l, -, e⟩
    · cases e
      rw [successors_deliver] at hs
      exact hgrouped.leader_rep (contains_deliver.trans (hfollowed m hm hrm s hs))
    · cases e

theorem link (h : f.Addressed) (htarget : ¬ f.graph.linked source target →
      ¬ (f.graph.outbound sieve (f.graph.representative source)
        (f.graph.tokens source)).isEmpty → f.graph.contains target) :
    (f.link sieve source target).2.Addressed := by
  refine ⟨grouped_link h.grouped source target,
    growing_link (Agenda.lasting_kept _).toGrowing h.kept, fun {k t} hw => ?_⟩
  unfold Leader
  rw [contains_link, representative_link]
  rcases waits_link_outbound.mp hw with hw | ⟨hlinked, e, ht, -⟩
  · exact h.leader hw
  · cases e
    exact h.grouped.leader_rep (htarget hlinked fun he => SortedSet.isEmpty_eq_true.mp he t ht)

theorem offer (h : f.Addressed) (hn : f.graph.contains n) (tokens : TokenSet τ) :
    (f.offer n tokens).2.Addressed := by
  refine h.of_agenda (growing_offer (Agenda.lasting_kept _).toGrowing h.kept) fun m t hw => ?_
  refine (waits_offer.mp hw).imp id fun hnew => ?_
  cases hnew.1
  exact h.grouped.leader_rep hn

theorem subscribe (h : f.Addressed) (n : NodeId) (l : ListenerId) :
    (f.subscribe sieve n l).Addressed := by
  have hgrouped : (f.subscribe sieve n l).graph.Grouped :=
    h.grouped.transfer (sameShape_modify (fun _ => rfl) (fun _ => rfl) fun _ => rfl)
  refine ⟨hgrouped, h.kept.post _ _, fun hw => ?_⟩
  unfold Leader
  rw [contains_subscribe, representative_subscribe]
  exact h.leader (waits_send_subscribe.mp hw)

/-- **Fusing files anew what waits for the parts**: under the name of the whole, which leads from
now on. The others that are addressed are not on the cycle, so they go on leading. -/
theorem fuse (h : f.Addressed) {cycle : List NodeId} (hc : Fusable f.graph cycle)
    (hclosed : ∀ r ∈ cycle, f.graph.Closed r) : (f.fuse cycle).Addressed := by
  refine ⟨grouped_fuse hc, lasting_fuse (Agenda.lasting_kept _) h.kept, fun {k t} hw => ?_⟩
  rcases length_lt_or_two_le cycle with hle | htwo
  · rw [fuse_of_length_le hle] at hw ⊢
    exact h.leader hw
  rcases (waits_fuse hc htwo).mp hw with ⟨hw, hne⟩ | ⟨e, -⟩ | ⟨-, m, hm, hrm, -, hpass⟩
  · obtain ⟨hk, hrep⟩ := h.leader hw
    refine ⟨contains_fuse.trans hk, ?_⟩
    have hout : f.graph.representative k ∉ cycle := fun hmem => hne k (hrep ▸ hmem) rfl
    rw [representative_fuse hc, if_neg hout, hrep]
  · cases e
    have hmem := least_mem_of_two_le htwo
    refine ⟨contains_fuse.trans (hc.contains _ hmem), ?_⟩
    rw [representative_fuse hc, hc.rep hmem, if_pos hmem]
  · rcases hpass with ⟨s, hs, e, -⟩ | ⟨l, -, e⟩
    · cases e
      rw [successors_fuse] at hs
      exact (grouped_fuse hc).leader_rep (contains_fuse.trans (hclosed _ hrm m hm rfl s hs))
    · cases e

/-- One after the other, the components that a pass reaches are fused. Those whose turn is still to
come are closed all the time, so what is passed to them is addressed to leaders, and filed anew at
their turn. -/
theorem condense (h : f.Addressed) (hclosed : ∀ r, f.graph.Reached roots r → f.graph.Closed r) :
    (f.condense roots).2.Addressed := by
  refine (condense_induction_reached (P := fun f' => f'.Addressed ∧
    ∀ r, f.graph.Reached roots r → f'.graph.Closed r) h.grouped roots (fun g hu => ?_) ?_).1
  · refine ⟨h.of_graph (h.grouped.of_unmarked hu) (fun hn => (contains_of_unmarked hu).trans hn)
      fun n => representative_of_unmarked hu, fun r hr m hm hrm s hs => ?_⟩
    rw [contains_of_unmarked hu] at hm ⊢
    rw [representative_of_unmarked hu] at hrm
    rw [successors_of_unmarked hu] at hs
    exact hclosed r hr m hm hrm s hs
  · rintro f' c hc hreached ⟨hf', hclosed'⟩
    refine ⟨hf'.fuse hc fun r hr => hclosed' r (hreached r hr), fun r hr m hm hrm s hs => ?_⟩
    rw [contains_fuse] at hm ⊢
    rw [successors_fuse] at hs
    by_cases hmem : f'.graph.representative m ∈ c
    · exact hclosed' _ (hreached _ hmem) m hm rfl s hs
    · rw [representative_fuse hc, if_neg hmem] at hrm
      exact hclosed' r hr m hm hrm s hs

theorem collect (h : f.Addressed) (item : WorkItem) :
    Addressed { f with agenda := (f.agenda.collect item).2 } :=
  h.of_agenda (h.kept.collect fun _ _ => id) fun _ _ hw => .inl (Agenda.waits_collect.mp hw).2

theorem execute (h : f.Addressed) {item : WorkItem} (hdone : (f.execute? sieve item).isSome) :
    (f.execute sieve item).2.Addressed := by
  refine execute_cases item (fun _ => h.collect item) fun n tokens hitem hd => ?_
  subst hitem
  have hdeliver : (f.deliver? sieve n tokens).isSome := by
    unfold execute? at hdone
    rw [hd] at hdone
    simpa using hdone
  exact (h.collect (.send n)).deliver (h.of_delta? hd).1 fun hout =>
    closed_of_deliver? (f := f) h.grouped hdeliver hout

/-- **Every operation that is not refused leaves only leaders addressed.** -/
theorem perform (h : f.Addressed) (hop : f.perform? sieve op = some f') : f'.Addressed := by
  cases does_of_perform? hop with
  | addNode label =>
    exact h.of_graph (h.grouped.addNode label) (fun hn => contains_addNode.mpr (.inl hn))
      fun _ => representative_addNode
  | link target hsource =>
    obtain ⟨done, hdone, -⟩ := Option.map_eq_some_iff.mp hop
    exact h.link (contains_of_link? (Option.isSome_of_eq_some hdone))
  | deliver tokens hn =>
    obtain ⟨done, hdone, -⟩ := Option.map_eq_some_iff.mp hop
    exact h.deliver hn (closed_of_deliver? h.grouped (Option.isSome_of_eq_some hdone))
  | offer tokens hn => exact h.offer hn tokens
  | setFilter _ hok =>
    obtain ⟨-, rfl⟩ := setFilter_eq_ok hok
    exact h.of_graph (h.grouped.transfer (sameShape_modify (fun _ => rfl) (fun _ => rfl)
      fun _ => rfl)) (fun hn => contains_modify.trans hn) fun _ => representative_modify fun _ => rfl
  | refuse => exact h
  | subscribe l => exact h.subscribe _ l
  | condense roots =>
    obtain ⟨done, hdone, -⟩ := Option.map_eq_some_iff.mp hop
    exact h.condense fun r hr =>
      closed_of_condense? h.grouped (Option.isSome_of_eq_some hdone) hr
  | execute item =>
    obtain ⟨done, hdone, -⟩ := Option.map_eq_some_iff.mp hop
    exact h.execute (Option.isSome_of_eq_some hdone)
  | schedule id => exact h.of_agenda (h.kept.schedule _) fun _ _ hw => .inl hw
  | giveBack n l tokens =>
    refine h.of_agenda (h.kept.post _ _) fun m t hw => .inl ?_
    exact (Agenda.waits_post.mp hw).resolve_right fun hnew => nomatch hnew.1
  | beginRound hbag =>
    refine h.of_agenda ((h.kept.startRound hbag).2.mono fun _ _ => trivial) fun n t hw => .inl ?_
    exact (Agenda.waits_startRound hbag).mp hw
  | putBack bag =>
    have hkept : (f.agenda.putBack bag).Kept fun _ => True :=
      ⟨h.kept.sound.foldl_add _, fun _ => .inr trivial, h.kept.nonempty⟩
    exact h.of_agenda hkept fun _ _ hw => .inl hw
  | clear => exact Addressed.empty _

end Addressed

theorem Reachable.addressed {order : BagOrder}
    {allowed : (φ → TokenSet τ → TokenSet τ) → Flow φ τ → Operation φ τ → Prop}
    (h : Reachable allowed order f) : f.Addressed := by
  induction h with
  | empty => exact .empty order
  | step op _ _ hdone ih => exact ih.perform hdone

/-! ## 4. One address for each component -/

/-- **Tokens wait for a component under one name**: in every flow that operations lead to, with
arbitrary filters, whatever has tokens waiting for it as a node exists and is its own
representative. So two nodes of one component never have tokens waiting at once. -/
theorem Reachable.one_address {order : BagOrder} (h : Reachable (fun _ _ _ => True) order f) :
    (∀ n delta, f.agenda.delta? (.send n) = some delta →
      f.graph.contains n ∧ f.graph.representative n = n) ∧
    ∀ m n delta delta', f.agenda.delta? (.send m) = some delta →
      f.agenda.delta? (.send n) = some delta' →
      f.graph.representative m = f.graph.representative n → m = n := by
  refine ⟨fun n delta hd => h.addressed.of_delta? hd, fun m n delta delta' hm hn e => ?_⟩
  rw [← (h.addressed.of_delta? hm).2, ← (h.addressed.of_delta? hn).2]
  exact e

/-- Two circles, `1` with `2` and `3` with `4`, and a link from the first to the second. Tokens wait
for `4`, `1` and `3` when the circles are fused; then both come to be on a circle with `0`, which is
fused, too. -/
def refiledSteps : List (Operation Unit Nat) :=
  [.addNode none, .addNode none, .addNode none, .addNode none, .addNode none, .link ⟨1⟩ ⟨2⟩,
    .link ⟨2⟩ ⟨1⟩, .link ⟨3⟩ ⟨4⟩, .link ⟨4⟩ ⟨3⟩, .link ⟨2⟩ ⟨3⟩, .offer ⟨4⟩ (.singleton 9),
    .deliver ⟨2⟩ (.singleton 5), .condense [⟨1⟩], .link ⟨4⟩ ⟨0⟩, .link ⟨0⟩ ⟨2⟩, .condense [⟨0⟩]]

/-- The flow after `refiledSteps`. -/
def refiledFlow : Flow Unit Nat :=
  (refiledSteps.foldlM (perform? fun _ s => s) (.empty .fifo)).getD (.empty .fifo)

theorem reachable_refiledFlow : Reachable (fun _ _ _ => True) .fifo refiledFlow := by
  have hsome : (refiledSteps.foldlM (perform? fun _ s => s)
      (.empty .fifo : Flow Unit Nat)).isSome := by decide +kernel
  obtain ⟨f, hf⟩ := Option.isSome_iff_exists.mp hsome
  have hrefiled : refiledFlow = f := by
    unfold refiledFlow
    rw [hf]
    rfl
  exact hrefiled ▸ Reachable.empty.foldlM hf

/-- What was filed under `4` has been filed under `3`, and then under `0`. -/
theorem one_address_refiledFlow :
    refiledFlow.agenda.delta? (.send ⟨0⟩) = some (.singleton 9) ∧
      refiledFlow.graph.representative ⟨4⟩ = ⟨0⟩ ∧
      ∀ n delta, refiledFlow.agenda.delta? (.send n) = some delta →
        refiledFlow.graph.representative n = ⟨0⟩ → n = ⟨0⟩ := by
  have hzero : refiledFlow.agenda.delta? (.send ⟨0⟩) = some (.singleton 9) := by decide +kernel
  obtain ⟨hleads, hone⟩ := reachable_refiledFlow.one_address
  refine ⟨hzero, by decide +kernel, fun n delta hd e => hone n ⟨0⟩ _ _ hd hzero ?_⟩
  exact e.trans (hleads _ _ hzero).2.symm

end Flow

end ValueFlow
