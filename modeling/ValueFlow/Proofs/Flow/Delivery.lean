import ValueFlow.Proofs.Flow.Addresses
import ValueFlow.Proofs.Flow.Arrangement

/-!
# What a delivery does, and nothing else

A delivery stores the tokens that are new to a component and pass its filter, and lets them wait
for those around it: the representatives of successors, less what they have, and the listeners.
Many links of a component may lead to the same representative, or back into the component itself;
what is passed along them ends up in one delta.

* `Agenda.Extends` says what posting may change of an agenda: items are queued, at the end of the
  queue, exactly when something begins to wait for them;
* `Graph.Retained` says what a filter at one node retains; other filters do not matter;
* `Flow.Delivered` collects the effect, `deliver_effect` proves it.
-/

namespace ValueFlow

variable {φ τ : Type} [Ordered τ]

/-! ## 1. Agendas that only grow -/

namespace Agenda

variable {a a' : Agenda τ} {item x : WorkItem} {tokens : TokenSet τ} {t : τ}
  {inHand : WorkItem → Prop}

/-- The tokens that wait for an item, possibly none. -/
def pending (a : Agenda τ) (item : WorkItem) : TokenSet τ := (a.delta? item).getD ∅

theorem mem_pending : t ∈ a.pending item ↔ a.Waits item t := by
  unfold pending Waits
  cases a.delta? item with
  | none => simp [SortedSet.not_mem_empty]
  | some delta => simp

/-- What is recorded can be told from what waits. -/
theorem Kept.delta?_eq (h : a.Kept inHand) : a.delta? item =
    if (a.pending item).isEmpty then none else some (a.pending item) := by
  unfold pending
  cases hd : a.delta? item with
  | none => rfl
  | some delta =>
    rw [Option.getD_some, h.nonempty hd]
    rfl

/-- **The agenda `a'` has come out of `a` by posting**: nothing ceases to wait, and the items for
which something begins to wait are added to the queue, in some order; nothing else is. -/
structure Extends (a a' : Agenda τ) : Prop where
  lasts : ∀ {item}, a'.delta? item = none → a.delta? item = none
  queued : ∃ added : List WorkItem, a'.next = added.foldl (fun b x => (b.add x).2) a.next ∧
    ∀ x, x ∈ added ↔ a.delta? x = none ∧ a'.delta? x ≠ none

theorem Extends.refl (a : Agenda τ) : a.Extends a :=
  ⟨id, [], rfl, fun _ => ⟨nofun, fun h => absurd h.1 h.2⟩⟩

theorem Extends.post (h : a.Extends a') (item : WorkItem) (tokens : TokenSet τ) :
    a.Extends (a'.post item tokens).2 := by
  by_cases he : tokens.isEmpty = true
  · rw [post_of_isEmpty he]
    exact h
  obtain ⟨added, hnext, hadded⟩ := h.queued
  have hlasts : ∀ {x}, (a'.post item tokens).2.delta? x = none → a.delta? x = none := fun hx =>
    h.lasts (delta?_post_eq_none.mp hx).1
  cases hd : a'.delta? item with
  | some waiting =>
    have hsame : ∀ x, (a'.post item tokens).2.delta? x = none ↔ a'.delta? x = none := fun x => by
      rw [delta?_post_eq_none]
      refine and_iff_left_of_imp fun hx e => ?_
      rw [← e, hd] at hx
      cases hx
    refine ⟨hlasts, added, ?_, fun x => ?_⟩
    · unfold Agenda.post
      rw [if_neg he, hd]
      exact hnext
    · rw [hadded, ne_eq, ne_eq, hsame]
  | none =>
    refine ⟨hlasts, added ++ [item], ?_, fun x => ?_⟩
    · unfold Agenda.post
      rw [if_neg he, hd, List.foldl_append]
      exact congrArg (fun b : Bag WorkItem => (b.add item).2) hnext
    · rw [List.mem_append, List.mem_singleton, hadded, ne_eq, ne_eq, delta?_post_eq_none]
      by_cases hx : item = x
      · subst hx
        exact ⟨fun _ => ⟨h.lasts hd, fun hnone => he (hnone.2 rfl)⟩, fun _ => .inr rfl⟩
      · refine ⟨fun hmem => ?_, fun ⟨hnone, hsome⟩ => .inl ⟨hnone, fun hx' => hsome ⟨hx', ?_⟩⟩⟩
        · obtain ⟨hnone, hsome⟩ := hmem.resolve_right (Ne.symm hx)
          exact ⟨hnone, fun hx' => hsome hx'.1⟩
        · exact fun e => absurd e hx

theorem growing_extends (a : Agenda τ) : Growing (Extends a) := ⟨fun tokens _ h => h.post _ tokens⟩

theorem Extends.mem_next (h : a.Extends a') :
    x ∈ a'.next.present ↔ x ∈ a.next.present ∨ (a.delta? x = none ∧ a'.delta? x ≠ none) := by
  obtain ⟨added, hnext, hadded⟩ := h.queued
  rw [hnext, Bag.mem_present_foldl_add, hadded, or_comm]

end Agenda

/-! ## 2. The filter of one node -/

namespace Graph

variable {sieve : φ → TokenSet τ → TokenSet τ} {g : Graph φ τ} {n : NodeId} {keeps : τ → Bool}

/-- The filter of the node retains the tokens that `keeps` tells; without a filter it tells all. -/
def Retained (sieve : φ → TokenSet τ → TokenSet τ) (g : Graph φ τ) (n : NodeId)
    (keeps : τ → Bool) : Prop :=
  match g.filter? n with
  | some filter => ∀ tokens, sieve filter tokens = tokens.filter keeps
  | none => ∀ t, keeps t = true

theorem Retained.screen_eq (h : g.Retained sieve n keeps) (tokens : TokenSet τ) :
    g.screen sieve n tokens = tokens.filter keeps := by
  unfold Retained at h
  unfold screen
  cases hf : g.filter? n with
  | some filter =>
    rw [hf] at h
    exact h tokens
  | none =>
    rw [hf] at h
    exact SortedSet.ext fun t => by simp [SortedSet.mem_filter, h t]

end Graph

namespace Flow

open ValueFlow.Graph

variable {sieve : φ → TokenSet τ → TokenSet τ} {f : Flow φ τ} {n : NodeId} {tokens : TokenSet τ}
  {keeps : τ → Bool} {t : τ} {inHand : WorkItem → Prop}

theorem mem_gain_of_retained (h : f.graph.Retained sieve (f.graph.representative n) keeps) :
    t ∈ f.gain sieve n tokens ↔ t ∈ tokens ∧ t ∉ f.graph.tokens n ∧ keeps t = true := by
  unfold gain
  dsimp only
  rw [h.screen_eq, SortedSet.mem_filter, SortedSet.mem_diff, and_assoc]
  rfl

/-- What was let in is let out. -/
theorem outbound_gain (h : f.graph.Retained sieve (f.graph.representative n) keeps) :
    f.graph.outbound sieve (f.graph.representative n) (f.gain sieve n tokens) =
      f.gain sieve n tokens := by
  unfold outbound
  split
  · rfl
  · rw [h.screen_eq]
    refine SortedSet.ext fun t => ?_
    rw [SortedSet.mem_filter]
    exact and_iff_left_of_imp fun ht => ((mem_gain_of_retained h).mp ht).2.2

/-! ## 3. The effect of a delivery -/

/-- **What is left of `f` after tokens were delivered to the component of `r`**, whose filter
retains what `keeps` tells. -/
structure Delivered (f : Flow φ τ) (r : NodeId) (tokens : TokenSet τ) (keeps : τ → Bool)
    (grew : Bool) (f' : Flow φ τ) : Prop where
  tokens_eq : f'.graph.tokens r = f.graph.tokens r ∪ tokens.filter keeps
  grew_iff : grew = true ↔ f'.graph.tokens r ≠ f.graph.tokens r
  /-- nothing else changes in the graph -/
  graph_eq : f'.graph = grown f.graph r (f'.graph.tokens r \ f.graph.tokens r)
  send : ∀ m ∈ f.graph.component r, ∀ s ∈ f.graph.successors m,
    f'.agenda.pending (.send (f.graph.representative s)) =
      f.agenda.pending (.send (f.graph.representative s)) ∪
        ((f'.graph.tokens r \ f.graph.tokens r) \ f'.graph.tokens (f.graph.representative s))
  notify : ∀ m ∈ f.graph.component r, ∀ l ∈ f.graph.listeners m,
    f'.agenda.pending (.notify m l) =
      f.agenda.pending (.notify m l) ∪ (f'.graph.tokens r \ f.graph.tokens r)
  /-- nothing else waits -/
  other : ∀ item, (∀ m ∈ f.graph.component r,
      (∀ s ∈ f.graph.successors m, item ≠ .send (f.graph.representative s)) ∧
        ∀ l ∈ f.graph.listeners m, item ≠ .notify m l) →
    f'.agenda.delta? item = f.agenda.delta? item
  mem_next : ∀ item, item ∈ f'.agenda.next.present ↔ item ∈ f.agenda.next.present ∨
    (f.agenda.delta? item = none ∧ f'.agenda.delta? item ≠ none)
  /-- nothing else changes in the queue -/
  extend : f.agenda.Extends f'.agenda
  unchanged : grew = false → f' = f

theorem deliver_of_isEmpty (he : (f.gain sieve n tokens).isEmpty = true) :
    f.deliver sieve n tokens = (false, f) := by
  unfold deliver
  dsimp only
  rw [if_pos he]

theorem deliver_fst : (f.deliver sieve n tokens).1 = !(f.gain sieve n tokens).isEmpty := by
  unfold deliver
  dsimp only
  cases (f.gain sieve n tokens).isEmpty with
  | true => rfl
  | false =>
    rw [if_neg Bool.false_ne_true]
    split <;> rfl

theorem grown_of_isEmpty {g : Graph φ τ} {r : NodeId} {more : TokenSet τ}
    (he : more.isEmpty = true) : grown g r more = g := by
  have hsame : (fun v : Node φ τ => { v with tokens := v.tokens ∪ more }) = id := by
    funext v
    have htokens : v.tokens ∪ more = v.tokens := SortedSet.ext fun t => by
      simp [SortedSet.mem_union, SortedSet.isEmpty_eq_true.mp he t]
    rw [htokens]
    rfl
  unfold grown Graph.modify
  rw [hsame]
  congr 1
  refine Array.ext_getElem? fun i => ?_
  rw [Array.getElem?_modify]
  split <;> simp

theorem graph_deliver_eq : (f.deliver sieve n tokens).2.graph =
    grown f.graph (f.graph.representative n) (f.gain sieve n tokens) := by
  rw [graph_deliver]
  split
  · rename_i he
    rw [grown_of_isEmpty he]
  · rfl

section

variable (hg : f.graph.Grouped) (hn : f.graph.contains n)
  (hkeeps : f.graph.Retained sieve (f.graph.representative n) keeps)
include hg

/-- Nodes of a component still have their tokens in common. -/
theorem tokens_rep_deliver (s : NodeId) :
    (f.deliver sieve n tokens).2.graph.tokens (f.graph.representative s) =
      (f.deliver sieve n tokens).2.graph.tokens s := by
  have hrep : (f.deliver sieve n tokens).2.graph.representative s = f.graph.representative s :=
    representative_deliver
  rw [← hrep]
  exact (grouped_deliver hg n tokens).tokens_rep

include hn

theorem mem_tokens_rep_deliver :
    t ∈ (f.deliver sieve n tokens).2.graph.tokens (f.graph.representative n) ↔
      t ∈ f.graph.tokens (f.graph.representative n) ∨ t ∈ f.gain sieve n tokens := by
  rw [mem_tokens_deliver hg hn, hg.rep_rep]
  exact or_congr_right (and_iff_right rfl)

include hkeeps

theorem tokens_deliver_eq :
    (f.deliver sieve n tokens).2.graph.tokens (f.graph.representative n) =
      f.graph.tokens (f.graph.representative n) ∪ tokens.filter keeps := by
  refine SortedSet.ext fun t => ?_
  rw [mem_tokens_rep_deliver hg hn, mem_gain_of_retained hkeeps, SortedSet.mem_union,
    SortedSet.mem_filter, hg.tokens_rep]
  by_cases ht : t ∈ f.graph.tokens n <;> simp [ht]

/-- What is added is what is gained. -/
theorem added_eq_gain : (f.deliver sieve n tokens).2.graph.tokens (f.graph.representative n) \
    f.graph.tokens (f.graph.representative n) = f.gain sieve n tokens := by
  refine SortedSet.ext fun t => ?_
  rw [SortedSet.mem_diff, mem_tokens_rep_deliver hg hn]
  refine ⟨fun ⟨ht, hnew⟩ => ht.resolve_left hnew, fun ht => ⟨.inr ht, ?_⟩⟩
  rw [hg.tokens_rep]
  exact ((mem_gain_of_retained hkeeps).mp ht).2.1

theorem deliver_fst_iff : (f.deliver sieve n tokens).1 = true ↔
    (f.deliver sieve n tokens).2.graph.tokens (f.graph.representative n) ≠
      f.graph.tokens (f.graph.representative n) := by
  rw [deliver_fst, Bool.not_eq_true', Bool.eq_false_iff, ne_eq, ne_eq, not_iff_not]
  refine ⟨fun he => by rw [deliver_of_isEmpty he], fun e => ?_⟩
  rw [← added_eq_gain hg hn hkeeps, e, SortedSet.isEmpty_eq_true]
  exact fun t ht => (SortedSet.mem_diff.mp ht).2 (SortedSet.mem_diff.mp ht).1

/-- **What waits after a delivery**, token by token. -/
theorem mem_pending_deliver {item : WorkItem} :
    t ∈ (f.deliver sieve n tokens).2.agenda.pending item ↔
      t ∈ f.agenda.pending item ∨ (t ∈ f.gain sieve n tokens ∧
        ∃ m ∈ f.graph.component (f.graph.representative n),
          (f.deliver sieve n tokens).2.graph.PassesTo m item t) := by
  rw [Agenda.mem_pending, Agenda.mem_pending, waits_deliver_outbound hg hn, outbound_gain hkeeps]
  refine or_congr_right (and_congr_right fun _ => exists_congr fun m => ?_)
  rw [hg.mem_component (hg.contains_rep hn) hg.rep_rep, and_assoc]

theorem pending_send_deliver {m s : NodeId}
    (hm : m ∈ f.graph.component (f.graph.representative n)) (hs : s ∈ f.graph.successors m) :
    (f.deliver sieve n tokens).2.agenda.pending (.send (f.graph.representative s)) =
      f.agenda.pending (.send (f.graph.representative s)) ∪ (f.gain sieve n tokens \
        (f.deliver sieve n tokens).2.graph.tokens (f.graph.representative s)) := by
  refine SortedSet.ext fun t => ?_
  rw [mem_pending_deliver hg hn hkeeps, SortedSet.mem_union, SortedSet.mem_diff,
    tokens_rep_deliver hg]
  refine or_congr_right ⟨fun ⟨ht, m', _, hpass⟩ => ⟨ht, ?_⟩, fun ⟨ht, hlacks⟩ => ⟨ht, m, hm, ?_⟩⟩
  · -- another link may have led to the same representative
    rcases hpass with ⟨s', _, e, hlacks⟩ | ⟨l, _, e⟩
    · have hsame : f.graph.representative s = f.graph.representative s' := by
        rw [representative_deliver] at e
        exact WorkItem.send.inj e
      rw [← tokens_rep_deliver hg, hsame, tokens_rep_deliver hg]
      exact hlacks
    · cases e
  · refine .inl ⟨s, ?_, ?_, hlacks⟩
    · rw [successors_deliver]
      exact hs
    · rw [representative_deliver]

theorem pending_notify_deliver {m : NodeId} {l : ListenerId}
    (hm : m ∈ f.graph.component (f.graph.representative n)) (hl : l ∈ f.graph.listeners m) :
    (f.deliver sieve n tokens).2.agenda.pending (.notify m l) =
      f.agenda.pending (.notify m l) ∪ f.gain sieve n tokens := by
  refine SortedSet.ext fun t => ?_
  rw [mem_pending_deliver hg hn hkeeps, SortedSet.mem_union]
  refine or_congr_right ⟨fun ⟨ht, _⟩ => ht, fun ht => ⟨ht, m, hm, .inr ⟨l, ?_, rfl⟩⟩⟩
  rw [listeners_deliver]
  exact hl

/-- For all that is not around the component nothing new waits. -/
theorem pending_deliver_of_apart {item : WorkItem}
    (hitem : ∀ m ∈ f.graph.component (f.graph.representative n),
      (∀ s ∈ f.graph.successors m, item ≠ .send (f.graph.representative s)) ∧
        ∀ l ∈ f.graph.listeners m, item ≠ .notify m l) :
    (f.deliver sieve n tokens).2.agenda.pending item = f.agenda.pending item := by
  refine SortedSet.ext fun t => (mem_pending_deliver hg hn hkeeps).trans (or_iff_left ?_)
  rintro ⟨-, m, hm, ⟨s, hs, e, -⟩ | ⟨l, hl, e⟩⟩
  · rw [successors_deliver] at hs
    rw [representative_deliver] at e
    exact (hitem m hm).1 s hs e
  · rw [listeners_deliver] at hl
    exact (hitem m hm).2 l hl e

end

/-- **The effect of a delivery.** On a well-formed graph and an agenda that forgets nothing, tokens
that are delivered to a node are stored at its representative, as far as the filter there retains
them. What was added waits for all around the component. If nothing was added, nothing changed. -/
theorem deliver_effect (f : Flow φ τ) (hg : f.graph.WellFormed) (hkept : f.agenda.Kept inHand)
    (n : NodeId) (hn : f.graph.contains n) (tokens : TokenSet τ) (keeps : τ → Bool)
    (hkeeps : f.graph.Retained sieve (f.graph.representative n) keeps) :
    f.Delivered (f.graph.representative n) tokens keeps (f.deliver sieve n tokens).1
        (f.deliver sieve n tokens).2 ∧
      (f.deliver sieve n tokens).2.agenda.Kept inHand := by
  have hgrouped := hg.grouped
  have hadded : (f.deliver sieve n tokens).2.graph.tokens (f.graph.representative n) \
      f.graph.tokens (f.graph.representative n) = f.gain sieve n tokens :=
    added_eq_gain hgrouped hn hkeeps
  have hkept' : (f.deliver sieve n tokens).2.agenda.Kept inHand :=
    growing_deliver (Agenda.lasting_kept _).toGrowing hkept
  have hextends : f.agenda.Extends (f.deliver sieve n tokens).2.agenda :=
    growing_deliver (Agenda.growing_extends _) (.refl _)
  refine ⟨{
    tokens_eq := tokens_deliver_eq hgrouped hn hkeeps
    grew_iff := deliver_fst_iff hgrouped hn hkeeps
    graph_eq := by rw [hadded, graph_deliver_eq]
    send := fun m hm s hs => by rw [hadded, pending_send_deliver hgrouped hn hkeeps hm hs]
    notify := fun m hm l hl => by rw [hadded, pending_notify_deliver hgrouped hn hkeeps hm hl]
    other := fun item hitem => ?_
    mem_next := fun item => hextends.mem_next
    extend := hextends
    unchanged := fun hfalse => ?_ }, hkept'⟩
  · rw [hkept'.delta?_eq, hkept.delta?_eq, pending_deliver_of_apart hgrouped hn hkeeps hitem]
  · rw [deliver_fst, Bool.not_eq_false'] at hfalse
    rw [deliver_of_isEmpty hfalse]

/-- The filter lets even numbers through. -/
def onlyEven (_ : Unit) (tokens : TokenSet Nat) : TokenSet Nat := tokens.filter (· % 2 == 0)

/-- The node `0` has a filter, a listener, a link to itself and links to `1` and `2`, which are
fused. They have the token 4, and 9 waits for them. -/
def evenSteps : List (Operation Unit Nat) :=
  [.addNode none, .addNode none, .addNode none, .link ⟨1⟩ ⟨2⟩, .link ⟨2⟩ ⟨1⟩, .condense [⟨1⟩],
    .deliver ⟨2⟩ (.singleton 4), .offer ⟨2⟩ (.singleton 9), .setFilter ⟨0⟩ (), .link ⟨0⟩ ⟨0⟩,
    .link ⟨0⟩ ⟨2⟩, .link ⟨0⟩ ⟨1⟩, .subscribe ⟨0⟩ ⟨7⟩]

/-- The flow after `evenSteps`. -/
def evenFlow : Flow Unit Nat :=
  (evenSteps.foldlM (performAnchored? onlyEven) (.empty .fifo)).getD (.empty .fifo)

theorem reachable_evenFlow : Reachable (fun _ f op => f.Anchored op) .fifo evenFlow := by
  have hsome : (evenSteps.foldlM (performAnchored? onlyEven)
      (.empty .fifo : Flow Unit Nat)).isSome := by decide +kernel
  obtain ⟨f, hf⟩ := Option.isSome_iff_exists.mp hsome
  have heven : evenFlow = f := by
    unfold evenFlow
    rw [hf]
    rfl
  exact heven ▸ Reachable.empty.foldlM_anchored hf

/-- Of 3, 4 and 6 the filter retains 4 and 6. Both links to the fused nodes pass on 6 alone, which
comes to the 9 that waits already; the link back to `0` passes on nothing. -/
theorem deliver_effect_evenFlow :
    let f' := (evenFlow.deliver onlyEven ⟨0⟩ (.ofList [3, 4, 6])).2
    evenFlow.graph.WellFormed ∧ evenFlow.agenda.Kept (fun _ => True) ∧
      evenFlow.graph.Retained onlyEven ⟨0⟩ (· % 2 == 0) ∧
      f'.graph.tokens ⟨0⟩ = .ofList [4, 6] ∧
      f'.agenda.pending (.send ⟨1⟩) = .ofList [6, 9] ∧ f'.agenda.pending (.send ⟨0⟩) = ∅ ∧
      f'.agenda.pending (.notify ⟨0⟩ ⟨7⟩) = .ofList [4, 6] := by
  intro f'
  have hwf := reachable_evenFlow.wellFormed
  have hkept := reachable_evenFlow.addressed.kept
  have hretained : evenFlow.graph.Retained onlyEven ⟨0⟩ (· % 2 == 0) := by
    have hfilter : evenFlow.graph.filter? ⟨0⟩ = some () := by decide +kernel
    unfold Graph.Retained
    rw [hfilter]
    exact fun _ => rfl
  have hrep : evenFlow.graph.representative ⟨0⟩ = ⟨0⟩ := by decide +kernel
  have hfused : evenFlow.graph.representative ⟨2⟩ = ⟨1⟩ := by decide +kernel
  obtain ⟨h, -⟩ := deliver_effect evenFlow hwf hkept ⟨0⟩ (by decide +kernel) (.ofList [3, 4, 6])
    (· % 2 == 0) (hrep.symm ▸ hretained)
  have hsend := h.send ⟨0⟩ (by decide +kernel) ⟨2⟩ (by decide +kernel)
  have hself := h.send ⟨0⟩ (by decide +kernel) ⟨0⟩ (by decide +kernel)
  have hnotify := h.notify ⟨0⟩ (by decide +kernel) ⟨7⟩ (by decide +kernel)
  rw [hfused] at hsend
  rw [hrep] at hself
  refine ⟨hwf, hkept, hretained, ?_, ?_, ?_, ?_⟩
  · exact (hrep ▸ h.tokens_eq).trans (by decide +kernel)
  · exact hsend.trans (by decide +kernel)
  · exact hself.trans (by decide +kernel)
  · exact hnotify.trans (by decide +kernel)

end Flow

end ValueFlow
