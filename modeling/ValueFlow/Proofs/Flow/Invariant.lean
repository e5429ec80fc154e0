import ValueFlow.Flow.Round
import ValueFlow.Proofs.Flow.Condense
import ValueFlow.Proofs.Flow.Operations

/-!
# No token is lost, none is invented

Tokens are handed to nodes from outside, and from there they flow along the links through the
filters. `Flow.Inv` relates a flow to the tokens that were handed over, at any time:

* *nothing is invented*: a token at a node has a way there from a node that it was handed to, all
  along nodes that have it and admit it (`Supported`), and so has a token that waits for a node;
* *nothing is lost*: a token that is at the source of a link, and that the target admits, is at the
  target or on its way to it.

To fuse components is sound because they are connected in a circle and have no filter, so `Inv`
also says that components are connected by links of their own.

A token is on its way if it waits on the agenda, or if it was taken from there in order to be
delivered; the latter is told by a predicate `transit`.
-/

namespace ValueFlow.Flow

open Relation ValueFlow.Graph

variable {φ τ : Type} [Ordered τ] {sieve : φ → TokenSet τ → TokenSet τ}
  {handed handed' transit transit' : NodeId → τ → Prop} {f : Flow φ τ} {g g' : Graph φ τ}
  {u v n r : NodeId} {tokens : TokenSet τ} {t : τ}

/-! ## 1. The invariant -/

/-- **A token has come to a node**: it was handed to it, or came along a link, and all nodes on its
way have it and admit it. -/
inductive Supported (sieve : φ → TokenSet τ → TokenSet τ) (handed : NodeId → τ → Prop)
    (g : Graph φ τ) (t : τ) : NodeId → Prop where
  | hand {v : NodeId} : handed v t → g.Admits sieve v t → t ∈ g.tokens v →
      Supported sieve handed g t v
  | flow {u v : NodeId} : Supported sieve handed g t u → v ∈ g.successors u →
      g.Admits sieve v t → t ∈ g.tokens v → Supported sieve handed g t v

/-- There is a reason for a token to come to a node. -/
def Justified (sieve : φ → TokenSet τ → TokenSet τ) (handed : NodeId → τ → Prop)
    (g : Graph φ τ) (t : τ) (v : NodeId) : Prop :=
  handed v t ∨ ∃ u, v ∈ g.successors u ∧ Supported sieve handed g t u

/-- A link between nodes of one component. -/
def Inside (g : Graph φ τ) (a b : NodeId) : Prop :=
  b ∈ g.successors a ∧ g.representative a = g.representative b

/-- The token waits for `r`, or is about to be delivered there. -/
def OnTheWay (f : Flow φ τ) (transit : NodeId → τ → Prop) (r : NodeId) (t : τ) : Prop :=
  f.agenda.Waits (.send r) t ∨ transit r t

/-- Nothing is about to be delivered. -/
def noTransit (_ : NodeId) (_ : τ) : Prop := False

/-- The tokens are about to be delivered to `n`. -/
def carrying (n : NodeId) (tokens : TokenSet τ) (r : NodeId) (t : τ) : Prop := r = n ∧ t ∈ tokens

/-- **No token is lost, none is invented.** -/
structure Inv (sieve : φ → TokenSet τ → TokenSet τ) (handed transit : NodeId → τ → Prop)
    (f : Flow φ τ) : Prop where
  wellFormed : f.graph.WellFormed
  screened : f.graph.Screened sieve
  contains_handed : ∀ {v t}, handed v t → f.graph.contains v
  connected : ∀ {u v}, f.graph.contains u → f.graph.contains v →
    f.graph.representative u = f.graph.representative v → ReflTransGen (Inside f.graph) u v
  supported : ∀ {v t}, t ∈ f.graph.tokens v → Supported sieve handed f.graph t v
  arriving : ∀ {r t}, f.OnTheWay transit r t → ∃ m, f.graph.contains m ∧
    f.graph.representative m = r ∧ Justified sieve handed f.graph t m
  linked : ∀ {u v t}, v ∈ f.graph.successors u → t ∈ f.graph.tokens u →
    f.graph.Admits sieve v t →
    t ∈ f.graph.tokens v ∨ f.OnTheWay transit (f.graph.representative v) t
  handed : ∀ {v t}, handed v t → f.graph.Admits sieve v t →
    t ∈ f.graph.tokens v ∨ f.OnTheWay transit (f.graph.representative v) t

theorem onTheWay_noTransit :
    f.OnTheWay noTransit r t ↔ f.agenda.Waits (.send r) t := or_iff_left id

/-! ## 2. Tokens that have come to a node -/

theorem Supported.admits (h : Supported sieve handed g t v) : g.Admits sieve v t := by
  cases h with
  | hand _ ha _ => exact ha
  | flow _ _ ha _ => exact ha

theorem Justified.supported (h : Justified sieve handed g t v) (ha : g.Admits sieve v t)
    (ht : t ∈ g.tokens v) : Supported sieve handed g t v := by
  rcases h with h | ⟨u, hu, h⟩
  · exact .hand h ha ht
  · exact .flow h hu ha ht

/-- **What has come to a node stays there** if links, tokens and handed tokens only grow, and no
token that a node has is refused by it later. -/
theorem Supported.mono (hhanded : ∀ {v}, handed v t → handed' v t)
    (hsucc : ∀ {u v}, v ∈ g.successors u → v ∈ g'.successors u)
    (htokens : ∀ {v}, t ∈ g.tokens v → g.Admits sieve v t →
      t ∈ g'.tokens v ∧ g'.Admits sieve v t)
    (h : Supported sieve handed g t v) : Supported sieve handed' g' t v := by
  induction h with
  | hand hh ha ht =>
    obtain ⟨ht', ha'⟩ := htokens ht ha
    exact .hand (hhanded hh) ha' ht'
  | flow _ hv ha ht ih =>
    obtain ⟨ht', ha'⟩ := htokens ht ha
    exact .flow ih (hsucc hv) ha' ht'

theorem Justified.mono (hhanded : ∀ {v}, handed v t → handed' v t)
    (hsucc : ∀ {u v}, v ∈ g.successors u → v ∈ g'.successors u)
    (htokens : ∀ {v}, t ∈ g.tokens v → g.Admits sieve v t →
      t ∈ g'.tokens v ∧ g'.Admits sieve v t)
    (h : Justified sieve handed g t v) : Justified sieve handed' g' t v := by
  rcases h with h | ⟨u, hu, h⟩
  · exact .inl (hhanded h)
  · exact .inr ⟨u, hsucc hu, h.mono hhanded hsucc htokens⟩

/-- A token that has come to a node has come to all nodes of its component. -/
theorem Supported.along (hpath : ReflTransGen (Inside g) u v)
    (hall : ∀ w, g.representative w = g.representative u → g.Admits sieve w t ∧ t ∈ g.tokens w)
    (h : Supported sieve handed g t u) : Supported sieve handed g t v := by
  -- along the path the representative stays the same
  have hboth : Supported sieve handed g t v ∧ g.representative v = g.representative u := by
    induction hpath with
    | refl => exact ⟨h, rfl⟩
    | tail _ hstep ih =>
      obtain ⟨hb, hrep⟩ := ih
      have hrep' := hstep.2.symm.trans hrep
      obtain ⟨ha, ht⟩ := hall _ hrep'
      exact ⟨.flow hb hstep.1 ha ht, hrep'⟩
  exact hboth.1

/-- Components stay connected when links are added, and when components are made one. -/
theorem path_mono (hsucc : ∀ {u v}, v ∈ g.successors u → v ∈ g'.successors u)
    (hrep : ∀ {u v}, g.representative u = g.representative v →
      g'.representative u = g'.representative v)
    (h : ReflTransGen (Inside g) u v) : ReflTransGen (Inside g') u v :=
  ReflTransGen.mono (fun _ _ hab => ⟨hsucc hab.1, hrep hab.2⟩) u v h

/-! ## 3. Tokens on their way -/

theorem inv_empty (order : BagOrder) :
    Inv sieve (fun _ _ => False) noTransit (empty order : Flow φ τ) := by
  have hnode : ∀ v, ¬ (Graph.empty : Graph φ τ).contains v := fun v => by
    simp [Graph.contains, Graph.empty]
  have hwf : (empty order : Flow φ τ).graph.WellFormed := wellFormed_empty
  refine
    { wellFormed := hwf
      screened := fun v filter hf => ?_
      contains_handed := False.elim
      connected := fun hu => absurd hu (hnode _)
      supported := fun ht => absurd (contains_of_mem_tokens hwf ht) (hnode _)
      arriving := fun h => absurd (onTheWay_noTransit.mp h) (Agenda.waits_empty order _ _)
      linked := fun hv => absurd (contains_of_mem_successors hv) (hnode _)
      handed := False.elim }
  rw [filter?_eq, readAt_of_not_contains (g := (empty order : Flow φ τ).graph) (hnode v)] at hf
  cases hf

/-- **Only the way to a node changes**: tokens may take another one, and may leave it where they
have come already. -/
theorem Inv.of_way {a : Agenda τ} (h : Inv sieve handed transit f)
    (hsub : ∀ {r t}, OnTheWay { f with agenda := a } transit' r t → f.OnTheWay transit r t)
    (hsup : ∀ {v t}, f.OnTheWay transit (f.graph.representative v) t → t ∈ f.graph.tokens v ∨
      OnTheWay { f with agenda := a } transit' (f.graph.representative v) t) :
    Inv sieve handed transit' { f with agenda := a } where
  wellFormed := h.wellFormed
  screened := h.screened
  contains_handed := h.contains_handed
  connected := h.connected
  supported := h.supported
  arriving hw := h.arriving (hsub hw)
  linked hv ht ha := (h.linked hv ht ha).elim .inl hsup
  handed hh ha := (h.handed hh ha).elim .inl hsup

/-- Handing tokens to a node makes them on their way to it. -/
theorem Inv.hand (h : Inv sieve handed noTransit f) (hn : f.graph.contains n)
    (tokens : TokenSet τ) :
    Inv sieve (fun v t => handed v t ∨ (v = n ∧ t ∈ tokens))
      (carrying (f.graph.representative n) tokens) f := by
  have hjust : ∀ {v t}, Justified sieve handed f.graph t v →
      Justified sieve (fun v t => handed v t ∨ (v = n ∧ t ∈ tokens)) f.graph t v := fun hj =>
    hj.mono .inl id fun ht ha => ⟨ht, ha⟩
  have hway : ∀ {r t}, f.OnTheWay noTransit r t →
      f.OnTheWay (carrying (f.graph.representative n) tokens) r t := fun hw =>
    .inl (onTheWay_noTransit.mp hw)
  refine
    { wellFormed := h.wellFormed
      screened := h.screened
      contains_handed := ?_
      connected := h.connected
      supported := fun ht => (h.supported ht).mono .inl id fun ht ha => ⟨ht, ha⟩
      arriving := ?_
      linked := fun hv ht ha => (h.linked hv ht ha).imp id hway
      handed := ?_ }
  · rintro v t (hh | ⟨rfl, _⟩)
    · exact h.contains_handed hh
    · exact hn
  · rintro r t (hw | ⟨rfl, ht⟩)
    · obtain ⟨m, hm, hrep, hj⟩ := h.arriving (.inl hw)
      exact ⟨m, hm, hrep, hjust hj⟩
    · exact ⟨n, hn, rfl, .inl (.inr ⟨rfl, ht⟩)⟩
  · rintro v t (hh | ⟨rfl, ht⟩) ha
    · exact (h.handed hh ha).imp id hway
    · exact .inr (.inr ⟨rfl, ht⟩)

/-- Tokens that are offered wait on the agenda from then on. -/
theorem Inv.offer (h : Inv sieve handed (carrying (f.graph.representative n) tokens) f) :
    Inv sieve handed noTransit (f.offer n tokens).2 := by
  refine h.of_way (a := (f.graph.offer f.agenda n tokens).2) (fun {r t} hw => ?_)
    fun {v t} hw => ?_
  · rcases waits_offer.mp (onTheWay_noTransit.mp hw) with hw | ⟨e, ht, _⟩
    · exact .inl hw
    · cases e
      exact .inr ⟨rfl, ht⟩
  · rcases hw with hw | ⟨e, ht⟩
    · exact .inr (.inl (waits_offer.mpr (.inl hw)))
    · by_cases htv : t ∈ f.graph.tokens v
      · exact .inl htv
      · refine .inr (.inl (waits_offer.mpr (.inr ⟨congrArg _ e, ht, ?_⟩)))
        rw [← tokens_congr e]
        exact htv

/-- Tokens that are taken off the agenda in order to be delivered are in transit from then on. -/
theorem Inv.collect (h : Inv sieve handed noTransit f)
    (hdelta : f.agenda.delta? (.send n) = some tokens) :
    Inv sieve handed (carrying n tokens)
      { f with agenda := (f.agenda.collect (.send n)).2 } := by
  have hmem : ∀ t, f.agenda.Waits (.send n) t ↔ t ∈ tokens := fun t =>
    ⟨fun ⟨d, hd, ht⟩ => by rw [hdelta] at hd; cases hd; exact ht, fun ht => ⟨tokens, hdelta, ht⟩⟩
  refine h.of_way (fun {r t} hw => .inl ?_) fun {v t} hw => .inr ?_
  · rcases hw with hw | ⟨rfl, ht⟩
    · exact (Agenda.waits_collect.mp hw).2
    · exact (hmem t).mpr ht
  · have hw := onTheWay_noTransit.mp hw
    by_cases e : f.graph.representative v = n
    · exact .inr ⟨e, (hmem t).mp (e ▸ hw)⟩
    · refine .inl (Agenda.waits_collect.mpr ⟨fun e' => e ?_, hw⟩)
      cases e'
      rfl

/-- Other changes of the agenda that leave alone what waits for nodes. -/
theorem Inv.of_agenda {a : Agenda τ} (h : Inv sieve handed noTransit f)
    (ha : ∀ r t, a.Waits (.send r) t ↔ f.agenda.Waits (.send r) t) :
    Inv sieve handed noTransit { f with agenda := a } := by
  refine h.of_way (fun {r t} hw => ?_) fun {v t} hw => .inr ?_
  · exact .inl ((ha r t).mp (onTheWay_noTransit.mp hw))
  · exact .inl ((ha _ t).mpr (onTheWay_noTransit.mp hw))

/-! ## 4. Delivering -/

theorem admits_deliver :
    (f.deliver sieve n tokens).2.graph.Admits sieve v t ↔ f.graph.Admits sieve v t :=
  admits_congr filter?_deliver

theorem mem_successors_deliver (hv : v ∈ f.graph.successors u) :
    v ∈ (f.deliver sieve n tokens).2.graph.successors u := by
  rw [successors_deliver]
  exact hv

section Deliver

variable (h : Inv sieve handed (carrying (f.graph.representative n) tokens) f)
  (hn : f.graph.contains n)
include h hn

theorem Inv.keeps_deliver (ht : t ∈ f.graph.tokens v) (ha : f.graph.Admits sieve v t) :
    t ∈ (f.deliver sieve n tokens).2.graph.tokens v ∧
      (f.deliver sieve n tokens).2.graph.Admits sieve v t :=
  ⟨(mem_tokens_deliver h.wellFormed.grouped hn).mpr (.inl ht), admits_deliver.mpr ha⟩

omit hn in
theorem Inv.connected_deliver (hu : f.graph.contains u) (hv : f.graph.contains v)
    (e : f.graph.representative u = f.graph.representative v) :
    ReflTransGen (Inside (f.deliver sieve n tokens).2.graph) u v := by
  refine path_mono mem_successors_deliver (fun e => ?_) (h.connected hu hv e)
  rw [representative_deliver, representative_deliver]
  exact e

/-- A token that was on its way has come, or is still on its way. -/
theorem Inv.comes_deliver (ha : f.graph.Admits sieve v t)
    (hway : f.OnTheWay (carrying (f.graph.representative n) tokens) (f.graph.representative v) t) :
    t ∈ (f.deliver sieve n tokens).2.graph.tokens v ∨
      (f.deliver sieve n tokens).2.OnTheWay noTransit (f.graph.representative v) t := by
  rcases hway with hw | ⟨e, ht⟩
  · exact .inr (.inl ((waits_deliver h.wellFormed h.screened hn).mpr (.inl hw)))
  · left
    rw [mem_tokens_deliver h.wellFormed.grouped hn]
    by_cases htv : t ∈ f.graph.tokens v
    · exact .inl htv
    · refine .inr ⟨e, (mem_gain h.wellFormed h.screened).mpr ⟨ht, ?_, ?_⟩⟩
      · rw [← tokens_congr e]
        exact htv
      · exact (h.wellFormed.admits_iff e).mp ha

theorem Inv.supported_deliver (ht : t ∈ (f.deliver sieve n tokens).2.graph.tokens v) :
    Supported sieve handed (f.deliver sieve n tokens).2.graph t v := by
  have hwf := h.wellFormed
  rcases (mem_tokens_deliver hwf.grouped hn).mp ht with hold | ⟨e, hnew⟩
  · exact (h.supported hold).mono id mem_successors_deliver (h.keeps_deliver hn)
  · -- what is new came to some node of the component, and from there to all of them
    obtain ⟨hin, _, ha⟩ := (mem_gain hwf h.screened).mp hnew
    obtain ⟨m, hm, hrep, hj⟩ := h.arriving (.inr ⟨rfl, hin⟩)
    have hall : ∀ w, f.graph.representative w = f.graph.representative n →
        (f.deliver sieve n tokens).2.graph.Admits sieve w t ∧
          t ∈ (f.deliver sieve n tokens).2.graph.tokens w := fun w hw =>
      ⟨admits_deliver.mpr ((hwf.admits_iff hw).mpr ha),
        (mem_tokens_deliver hwf.grouped hn).mpr (.inr ⟨hw, hnew⟩)⟩
    obtain ⟨ham, htm⟩ := hall m hrep
    have hv : f.graph.contains v := hwf.contains_iff_rep.mp (e ▸ hwf.contains_rep hn)
    refine Supported.along (h.connected_deliver hm hv (hrep.trans e.symm)) (fun w hw => ?_)
      ((hj.mono id mem_successors_deliver (h.keeps_deliver hn)).supported ham htm)
    rw [representative_deliver, representative_deliver, hrep] at hw
    exact hall w hw

/-- **A delivery brings the tokens home** and sends on what is new. -/
theorem Inv.deliver : Inv sieve handed noTransit (f.deliver sieve n tokens).2 := by
  have hwf := h.wellFormed
  have hstay : ∀ {v t}, t ∈ f.graph.tokens v →
      t ∈ (f.deliver sieve n tokens).2.graph.tokens v := fun ht =>
    (mem_tokens_deliver hwf.grouped hn).mpr (.inl ht)
  refine
    { wellFormed := wellFormed_deliver hwf
      screened := fun v filter hv => h.screened v filter (by rw [filter?_deliver] at hv; exact hv)
      contains_handed := fun hh => by rw [contains_deliver]; exact h.contains_handed hh
      connected := fun {u v} hu hv e => ?_
      supported := h.supported_deliver hn
      arriving := fun {r t} hw => ?_
      linked := fun {u v t} hv ht ha => ?_
      handed := fun {v t} hh ha => ?_ }
  · rw [contains_deliver] at hu hv
    rw [representative_deliver, representative_deliver] at e
    exact h.connected_deliver hu hv e
  · simp only [contains_deliver, representative_deliver]
    rcases (waits_deliver hwf h.screened hn).mp (onTheWay_noTransit.mp hw) with hw | hw
    · obtain ⟨m, hm, hrep, hj⟩ := h.arriving (.inl hw)
      exact ⟨m, hm, hrep, hj.mono id mem_successors_deliver (h.keeps_deliver hn)⟩
    · obtain ⟨hnew, m, hm, hrep, hpass⟩ := hw
      rcases hpass with ⟨s, hs, e, _⟩ | ⟨l, _, e⟩
      · cases e
        have htm := (mem_tokens_deliver hwf.grouped hn (m := m)).mpr (.inr ⟨hrep, hnew⟩)
        refine ⟨s, ?_, representative_deliver.symm, .inr ⟨m, hs, h.supported_deliver hn htm⟩⟩
        rw [successors_deliver] at hs
        exact hwf.contains_successor hs
      · cases e
  · rw [successors_deliver] at hv
    rw [admits_deliver] at ha
    rw [representative_deliver]
    rcases (mem_tokens_deliver hwf.grouped hn).mp ht with hold | ⟨e, hnew⟩
    · exact (h.linked hv hold ha).elim (fun ht => .inl (hstay ht)) (h.comes_deliver hn ha)
    · by_cases htv : t ∈ (f.deliver sieve n tokens).2.graph.tokens v
      · exact .inl htv
      · have hu := contains_of_mem_successors hv
        refine .inr (.inl ((waits_deliver hwf h.screened hn).mpr (.inr ⟨hnew, u, hu, e, ?_⟩)))
        exact .inl ⟨v, mem_successors_deliver hv, by rw [representative_deliver], htv⟩
  · rw [admits_deliver] at ha
    rw [representative_deliver]
    exact (h.handed hh ha).elim (fun ht => .inl (hstay ht)) (h.comes_deliver hn ha)

end Deliver

/-- To take out tokens that do not wait for a node leaves the way to nodes alone. -/
theorem Inv.collect_idle (h : Inv sieve handed noTransit f) {item : WorkItem}
    (hitem : ∀ r t, item = .send r → ¬ f.agenda.Waits item t) :
    Inv sieve handed noTransit { f with agenda := (f.agenda.collect item).2 } := by
  refine h.of_agenda fun r t => ?_
  rw [Agenda.waits_collect]
  exact ⟨fun hw => hw.2, fun hw => ⟨fun e => hitem r t e.symm (e ▸ hw), hw⟩⟩

/-- Tokens wait for representatives only. -/
theorem Inv.target (h : Inv sieve handed noTransit f)
    (hd : f.agenda.delta? (.send n) = some tokens) (hne : tokens.isEmpty = false) :
    f.graph.contains n ∧ f.graph.representative n = n := by
  rw [← Bool.not_eq_true, SortedSet.isEmpty_eq_true] at hne
  obtain ⟨t, ht⟩ := Classical.not_forall.mp hne
  obtain ⟨m, hm, hrep, _⟩ := h.arriving (.inl ⟨tokens, hd, Classical.not_not.mp ht⟩)
  exact ⟨hrep ▸ h.wellFormed.contains_rep hm, hrep ▸ h.wellFormed.rep_rep⟩

/-- **Executing an item** delivers what waits for a node, and only takes out what waits for
others. -/
theorem execute_cases {P : Flow φ τ → Prop} (item : WorkItem)
    (hidle : (∀ n, item = .send n → f.agenda.delta? item = none) →
      P { f with agenda := (f.agenda.collect item).2 })
    (hsend : ∀ n tokens, item = .send n → f.agenda.delta? item = some tokens →
      P (Flow.deliver sieve { f with agenda := (f.agenda.collect item).2 } n tokens).2) :
    P (f.execute sieve item).2 := by
  cases item with
  | notify n l => exact hidle nofun
  | task id => exact hidle nofun
  | send n =>
    unfold Flow.execute Agenda.collect
    cases hd : f.agenda.delta? (.send n) with
    | none => exact hidle fun _ _ => hd
    | some tokens => exact hsend n tokens rfl hd

/-- An item for which nothing waits changes nothing. -/
theorem execute_of_delta? {item : WorkItem} (h : f.agenda.delta? item = none) :
    (f.execute sieve item).2 = f := by
  refine execute_cases (P := fun f' => f' = f) item (fun _ => ?_) fun n tokens _ hd => ?_
  · rw [Agenda.collect_of_delta? h]
  · rw [h] at hd
    cases hd

theorem Inv.execute (h : Inv sieve handed noTransit f) {item : WorkItem}
    (hne : ∀ delta, f.agenda.delta? item = some delta → delta.isEmpty = false) :
    Inv sieve handed noTransit (f.execute sieve item).2 := by
  refine execute_cases item (fun hidle => ?_) fun n tokens hitem hd => ?_
  · refine h.collect_idle fun r t hr hw => ?_
    obtain ⟨d, hd, _⟩ := hw
    rw [hidle r hr] at hd
    cases hd
  · subst hitem
    obtain ⟨hn, hrn⟩ := h.target hd (hne tokens hd)
    refine Inv.deliver ?_ hn
    show Inv sieve handed (carrying (f.graph.representative n) tokens) _
    rw [hrn]
    exact h.collect hd

/-- Executing an item leaves links and filters alone. -/
theorem readings_execute (item : WorkItem) (v : NodeId) :
    (f.execute sieve item).2.graph.successors v = f.graph.successors v ∧
      (f.execute sieve item).2.graph.filter? v = f.graph.filter? v :=
  execute_cases (P := fun f' => f'.graph.successors v = f.graph.successors v ∧
      f'.graph.filter? v = f.graph.filter? v) item (fun _ => ⟨rfl, rfl⟩)
    fun _ _ _ _ => ⟨successors_deliver, filter?_deliver⟩

theorem kept_execute {item : WorkItem} {p q : WorkItem → Prop} (hk : f.agenda.Kept p)
    (hpq : ∀ x, x ≠ item → p x → q x) : (f.execute sieve item).2.agenda.Kept q :=
  execute_cases (P := fun f' => f'.agenda.Kept q) item (fun _ => hk.collect hpq)
    fun _ _ _ _ => growing_deliver (Agenda.lasting_kept q).toGrowing (hk.collect hpq)

/-! ## 5. Building the graph -/

/-- **A flow that was extended**: tokens and representatives stay, links and nodes may be added.
A node that has a token goes on admitting it, and what comes along a new link is taken care of. -/
structure Extends (sieve : φ → TokenSet τ → TokenSet τ) (f f' : Flow φ τ) : Prop where
  wellFormed : f'.graph.WellFormed
  screened : f'.graph.Screened sieve
  contains : ∀ {v}, f.graph.contains v → f'.graph.contains v
  fresh : ∀ {u v}, f'.graph.contains u → f'.graph.contains v →
    f.graph.representative u = f.graph.representative v →
    f.graph.contains u ∧ f.graph.contains v ∨ u = v
  representative : ∀ v, f'.graph.representative v = f.graph.representative v
  tokens : ∀ v, f'.graph.tokens v = f.graph.tokens v
  successors : ∀ {u v}, v ∈ f.graph.successors u → v ∈ f'.graph.successors u
  admits : ∀ {v t}, f'.graph.Admits sieve v t → f.graph.Admits sieve v t
  keeps : ∀ {v t}, t ∈ f.graph.tokens v → f.graph.Admits sieve v t → f'.graph.Admits sieve v t
  waits : ∀ {r t}, f.agenda.Waits (.send r) t → f'.agenda.Waits (.send r) t
  arriving : ∀ {r t}, f'.agenda.Waits (.send r) t → f.agenda.Waits (.send r) t ∨
    ∃ u v, v ∈ f'.graph.successors u ∧ t ∈ f.graph.tokens u ∧ f.graph.representative v = r
  linked : ∀ {u v t}, v ∈ f'.graph.successors u → v ∉ f.graph.successors u →
    t ∈ f.graph.tokens u → f.graph.Admits sieve u t → t ∈ f.graph.tokens v ∨
      f'.agenda.Waits (.send (f.graph.representative v)) t

theorem Inv.extend {f' : Flow φ τ} (h : Inv sieve handed noTransit f) (he : Extends sieve f f') :
    Inv sieve handed noTransit f' := by
  have hkeep : ∀ {t v}, t ∈ f.graph.tokens v → f.graph.Admits sieve v t →
      t ∈ f'.graph.tokens v ∧ f'.graph.Admits sieve v t := fun ht ha =>
    ⟨(he.tokens _).symm ▸ ht, he.keeps ht ha⟩
  have hway : ∀ {r t}, f.OnTheWay noTransit r t → f'.OnTheWay noTransit r t := fun hw =>
    .inl (he.waits (onTheWay_noTransit.mp hw))
  have hsupp : ∀ {v t}, t ∈ f.graph.tokens v → Supported sieve handed f'.graph t v := fun ht =>
    (h.supported ht).mono id he.successors hkeep
  refine
    { wellFormed := he.wellFormed
      screened := he.screened
      contains_handed := fun hh => he.contains (h.contains_handed hh)
      connected := fun {u v} hu hv e => ?_
      supported := fun {v t} ht => hsupp (he.tokens v ▸ ht)
      arriving := fun {r t} hw => ?_
      linked := fun {u v t} hv ht ha => ?_
      handed := fun {v t} hh ha => ?_ }
  · rw [he.representative, he.representative] at e
    rcases he.fresh hu hv e with ⟨hu, hv⟩ | rfl
    · exact path_mono he.successors
        (fun e => by rw [he.representative, he.representative]; exact e) (h.connected hu hv e)
    · exact .refl
  · rcases he.arriving (onTheWay_noTransit.mp hw) with hw | ⟨u, v, hv, ht, hr⟩
    · obtain ⟨m, hm, hr, hj⟩ := h.arriving (.inl hw)
      exact ⟨m, he.contains hm, (he.representative m).trans hr, hj.mono id he.successors hkeep⟩
    · refine ⟨v, he.wellFormed.contains_successor hv, (he.representative v).trans hr, ?_⟩
      exact .inr ⟨u, hv, hsupp ht⟩
  · rw [he.tokens] at ht ⊢
    rw [he.representative]
    by_cases hold : v ∈ f.graph.successors u
    · exact (h.linked hold ht (he.admits ha)).imp id hway
    · exact (he.linked hv hold ht (h.supported ht).admits).imp id .inl
  · rw [he.tokens, he.representative]
    exact (h.handed hh (he.admits ha)).imp id hway

theorem Inv.addNode (h : Inv sieve handed noTransit f) (label : Option Label) :
    Inv sieve handed noTransit (f.addNode label).2 := by
  have hnew : f.graph.representative ⟨f.graph.size⟩ = ⟨f.graph.size⟩ :=
    representative_of_not_contains not_contains_size
  refine h.extend
    { wellFormed := h.wellFormed.addNode label
      screened := fun v filter hv => h.screened v filter (filter?_addNode.symm.trans hv)
      contains := fun hv => contains_addNode.mpr (.inl hv)
      fresh := fun {u v} hu hv e => ?_
      representative := fun v => representative_addNode
      tokens := fun v => tokens_addNode
      successors := fun hv => ?_
      admits := (admits_congr filter?_addNode).mp
      keeps := fun _ ha => (admits_congr filter?_addNode).mpr ha
      waits := id
      arriving := .inl
      linked := fun hv hold => absurd ?_ hold }
  · -- the new node leads no other node
    rcases contains_addNode.mp hu with hu | rfl
    · rcases contains_addNode.mp hv with hv | rfl
      · exact .inl ⟨hu, hv⟩
      · exact absurd (hnew ▸ e ▸ h.wellFormed.contains_rep hu) not_contains_size
    · rcases contains_addNode.mp hv with hv | rfl
      · exact absurd (hnew ▸ e.symm ▸ h.wellFormed.contains_rep hv) not_contains_size
      · exact .inr rfl
  · show _ ∈ (f.graph.addNode label).2.successors _
    rw [successors_addNode]
    exact hv
  · change _ ∈ (f.graph.addNode label).2.successors _ at hv
    rw [successors_addNode] at hv
    exact hv

theorem Inv.link (h : Inv sieve handed noTransit f) (hu : f.graph.contains u)
    (hv : f.graph.contains v) : Inv sieve handed noTransit (f.link sieve u v).2 := by
  have hwf := h.wellFormed
  refine h.extend
    { wellFormed := wellFormed_link hwf hu hv
      screened := fun k filter hk => h.screened k filter (by rw [filter?_link] at hk; exact hk)
      contains := fun hk => by rw [contains_link]; exact hk
      fresh := fun ha hb _ => by rw [contains_link] at ha hb; exact .inl ⟨ha, hb⟩
      representative := fun k => representative_link
      tokens := fun k => tokens_link
      successors := fun hb => (mem_successors_link hwf hu).mpr (.inl hb)
      admits := (admits_congr filter?_link).mp
      keeps := fun _ ha => (admits_congr filter?_link).mpr ha
      waits := fun hw => (waits_link hwf h.screened).mpr (.inl hw)
      arriving := fun {r t} hw => ?_
      linked := fun {a b t} hb hold ht ha => ?_ }
  · rcases (waits_link hwf h.screened).mp hw with hw | ⟨_, e, ⟨ht, _⟩, _⟩
    · exact .inl hw
    · cases e
      exact .inr ⟨u, v, (mem_successors_link hwf hu).mpr (.inr ⟨rfl, rfl⟩), ht, rfl⟩
  · rcases (mem_successors_link hwf hu).mp hb with hb | ⟨rfl, rfl⟩
    · exact absurd hb hold
    · by_cases htb : t ∈ f.graph.tokens b
      · exact .inl htb
      · refine .inr ((waits_link hwf h.screened).mpr (.inr ⟨?_, rfl, ⟨ht, ha⟩, htb⟩))
        exact fun hl => hold (hwf.linked_iff.mp hl)

/-- **A filter is put on a node that has no tokens yet**, and no filter. -/
theorem Inv.setFilter (h : Inv sieve handed noTransit f) {filter : φ} {f' : Flow φ τ}
    (hok : f.setFilter n filter = .ok f') (hn : f.graph.contains n)
    (hempty : f.graph.tokens n = ∅) (hfirst : f.graph.filter? n = none)
    (hretains : Retains sieve filter) : Inv sieve handed noTransit f' := by
  obtain ⟨hfused, rfl⟩ := setFilter_eq_ok hok
  have hfilter : ∀ v, (f.graph.modify n fun v => { v with filter := some filter }).filter? v =
      if v = n then some filter else f.graph.filter? v := fun v => filter?_modify_filter hn
  refine h.extend
    { wellFormed := h.wellFormed.setFilter hfused
      screened := fun v φ' hv => ?_
      contains := fun hv => contains_modify.trans hv
      fresh := fun hu hv _ => .inl ⟨contains_modify.symm.trans hu, contains_modify.symm.trans hv⟩
      representative := fun v => representative_modify fun _ => rfl
      tokens := fun v => ?_
      successors := fun hv => by simpa using hv
      admits := fun {v t} ha => ?_
      keeps := fun {v t} ht ha => ?_
      waits := id
      arriving := .inl
      linked := fun hv hold => absurd (by simpa using hv) hold }
  · rw [hfilter] at hv
    split at hv
    · cases hv
      exact hretains
    · exact h.screened v φ' hv
  · show (f.graph.modify n fun v => { v with filter := some filter }).tokens v = _
    unfold Graph.tokens
    simp
  · by_cases hv : v = n
    · exact admits_of_none (hv ▸ hfirst)
    · exact (admits_congr ((hfilter v).trans (if_neg hv))).mp ha
  · have hv : v ≠ n := by
      rintro rfl
      rw [hempty] at ht
      exact SortedSet.not_mem_empty t ht
    exact (admits_congr ((hfilter v).trans (if_neg hv))).mpr ha

/-- **What reads the same is as good.** -/
theorem Inv.of_readings {f' : Flow φ τ} (h : Inv sieve handed noTransit f)
    (hwf : f'.graph.WellFormed) (hcont : ∀ v, f'.graph.contains v = f.graph.contains v)
    (hrep : ∀ v, f'.graph.representative v = f.graph.representative v)
    (hstored : ∀ v, f'.graph.stored v = f.graph.stored v)
    (hsucc : ∀ v, f'.graph.successors v = f.graph.successors v)
    (hfilter : ∀ v, f'.graph.filter? v = f.graph.filter? v)
    (hwaits : ∀ r t, f'.agenda.Waits (.send r) t ↔ f.agenda.Waits (.send r) t) :
    Inv sieve handed noTransit f' := by
  refine h.extend
    { wellFormed := hwf
      screened := fun v filter hv => h.screened v filter ((hfilter v).symm.trans hv)
      contains := fun hv => (hcont _).trans hv
      fresh := fun hu hv _ => .inl ⟨(hcont _).symm.trans hu, (hcont _).symm.trans hv⟩
      representative := hrep
      tokens := fun v => by unfold Graph.tokens; rw [hrep, hstored]
      successors := fun hv => (hsucc _).symm ▸ hv
      admits := (admits_congr (hfilter _)).mp
      keeps := fun _ ha => (admits_congr (hfilter _)).mpr ha
      waits := (hwaits _ _).mpr
      arriving := fun hw => .inl ((hwaits _ _).mp hw)
      linked := fun {u v t} hv hold => absurd (hsucc u ▸ hv) hold }

theorem Inv.subscribe (h : Inv sieve handed noTransit f) (n : NodeId) (l : ListenerId) :
    Inv sieve handed noTransit (f.subscribe sieve n l) := by
  refine h.of_readings ?_ (fun v => contains_modify) (fun v => ?_) (fun v => ?_) (fun v => ?_)
    (fun v => ?_) fun r t => waits_send_subscribe
  · exact h.wellFormed.modify n (fun _ => rfl) (fun _ => rfl) (fun _ => rfl) (fun _ => rfl)
      (fun _ => rfl) fun _ => rfl
  · exact representative_modify fun _ => rfl
  · exact stored_modify fun _ => rfl
  · exact successors_modify fun _ => rfl
  · exact filter?_modify fun _ => rfl

/-! ## 6. Fusing -/

/-- **A circle of components**: unfiltered ones, each of which leads to the others along links
between nodes of the circle. -/
structure Circle (g : Graph φ τ) (cycle : List NodeId) : Prop extends Fusable g cycle where
  round : ∀ a ∈ cycle, ∀ b ∈ cycle, ReflTransGen (fun x y => y ∈ cycle ∧
    ∃ m s, g.contains m ∧ g.representative m = x ∧ s ∈ g.successors m ∧
      g.representative s = y) a b

theorem Circle.fuse_of_disjoint {cycle other : List NodeId} (h : Fusable f.graph cycle)
    (ho : Circle f.graph other) (hd : ∀ r ∈ other, r ∉ cycle) :
    Circle (f.fuse cycle).graph other := by
  have hrep : ∀ {m x}, f.graph.representative m = x → x ∈ other →
      (f.fuse cycle).graph.representative m = x := fun {m x} e hx => by
    rw [representative_fuse h, e, if_neg (hd x hx)]
  refine { h.fuse_of_disjoint ho.toFusable hd with round := fun a ha b hb => ?_ }
  -- every step starts and ends in the circle
  have hpath : ∀ {c}, ReflTransGen (fun x y => y ∈ other ∧ ∃ m s, f.graph.contains m ∧
      f.graph.representative m = x ∧ s ∈ f.graph.successors m ∧ f.graph.representative s = y)
      a c → c ∈ other ∧ ReflTransGen (fun x y => y ∈ other ∧ ∃ m s,
        (f.fuse cycle).graph.contains m ∧ (f.fuse cycle).graph.representative m = x ∧
          s ∈ (f.fuse cycle).graph.successors m ∧
            (f.fuse cycle).graph.representative s = y) a c := by
    intro c hc
    induction hc with
    | refl => exact ⟨ha, .refl⟩
    | tail _ hstep ih =>
      obtain ⟨hin, hpath⟩ := ih
      obtain ⟨hy, m, s, hm, hx, hs, he⟩ := hstep
      refine ⟨hy, hpath.tail ⟨hy, m, s, ?_, hrep hx hin, ?_, hrep he hy⟩⟩
      · rw [contains_fuse]
        exact hm
      · rw [successors_fuse]
        exact hs
  exact (hpath (ho.round a ha b hb)).2

/-- The nodes of a circle are connected once it is fused. -/
theorem Circle.connected {cycle : List NodeId} (hc : Circle f.graph cycle)
    (h : Inv sieve handed noTransit f) (hu : f.graph.contains u) (hv : f.graph.contains v)
    (hcu : f.graph.representative u ∈ cycle) (hcv : f.graph.representative v ∈ cycle) :
    ReflTransGen (Inside (f.fuse cycle).graph) u v := by
  have hrep : ∀ {m}, f.graph.representative m ∈ cycle →
      (f.fuse cycle).graph.representative m = least cycle := fun hm => by
    rw [representative_fuse hc.toFusable, if_pos hm]
  have hsame : ∀ {a b}, f.graph.contains a → f.graph.contains b →
      f.graph.representative a = f.graph.representative b →
      ReflTransGen (Inside (f.fuse cycle).graph) a b := fun ha hb e =>
    path_mono (fun hv => by rw [successors_fuse]; exact hv)
      (fun e => by rw [representative_fuse hc.toFusable, representative_fuse hc.toFusable, e])
      (h.connected ha hb e)
  -- from component to component, and inside each of them to the node that leads on
  have hpath : ∀ {c}, ReflTransGen (fun x y => y ∈ cycle ∧ ∃ m s, f.graph.contains m ∧
      f.graph.representative m = x ∧ s ∈ f.graph.successors m ∧ f.graph.representative s = y)
      (f.graph.representative u) c → ∀ w, f.graph.contains w → f.graph.representative w = c →
      c ∈ cycle ∧ ReflTransGen (Inside (f.fuse cycle).graph) u w := by
    intro c hround
    induction hround with
    | refl => exact fun w hw e => ⟨hcu, hsame hu hw e.symm⟩
    | tail _ hstep ih =>
      intro w hw e
      obtain ⟨hy, m, s, hm, hx, hs, he⟩ := hstep
      obtain ⟨hin, hum⟩ := ih m hm hx
      have hcs := h.wellFormed.contains_successor hs
      have hms : Inside (f.fuse cycle).graph m s := by
        refine ⟨by rw [successors_fuse]; exact hs, ?_⟩
        rw [hrep (hx ▸ hin), hrep (he ▸ hy)]
      exact ⟨hy, (hum.tail hms).trans (hsame hcs hw (he.trans e.symm))⟩
  exact (hpath (hc.round _ hcu _ hcv) v hv rfl).2

section Fuse

variable {cycle : List NodeId} (hc : Circle f.graph cycle)
include hc

/-- A node of the circle has all its tokens afterwards. -/
theorem Circle.mem_tokens (hv : f.graph.representative v ∈ cycle)
    (ht : ∃ r ∈ cycle, t ∈ f.graph.tokens r) : t ∈ (f.fuse cycle).graph.tokens v := by
  rw [mem_tokens_fuse hc.toFusable, if_pos hv]
  exact ht

/-- A node of the circle has no filter. -/
theorem Circle.admits (hwf : f.graph.WellFormed) (hv : f.graph.representative v ∈ cycle) :
    (f.fuse cycle).graph.Admits sieve v t := by
  refine admits_of_none ?_
  rw [filter?_fuse, ← hwf.filter?_rep]
  exact (isFusable_iff.mp (hc.isFusable _ hv)).2

theorem Circle.keeps (ht : t ∈ f.graph.tokens v) (ha : f.graph.Admits sieve v t) :
    t ∈ (f.fuse cycle).graph.tokens v ∧ (f.fuse cycle).graph.Admits sieve v t :=
  ⟨hc.subset_tokens_fuse ht, (admits_congr filter?_fuse).mpr ha⟩

omit hc in
theorem successors_subset_fuse (hv : v ∈ f.graph.successors u) :
    v ∈ (f.fuse cycle).graph.successors u := by
  rw [successors_fuse]
  exact hv

variable (h : Inv sieve handed noTransit f)
include h

/-- Tokens go around the circle, to every node of it. -/
theorem Circle.supported (ht : t ∈ (f.fuse cycle).graph.tokens v) :
    Supported sieve handed (f.fuse cycle).graph t v := by
  have hold := fun {k} (hk : t ∈ f.graph.tokens k) =>
    (h.supported hk).mono id successors_subset_fuse hc.keeps
  have hmem := (mem_tokens_fuse hc.toFusable).mp ht
  by_cases hv : f.graph.representative v ∈ cycle
  · rw [if_pos hv] at hmem
    obtain ⟨r, hr, htr⟩ := hmem
    have hrr := (hc.rep hr).symm ▸ hr
    have hcv : f.graph.contains v := hc.grouped.contains_iff_rep.mp (hc.contains _ hv)
    refine Supported.along (hc.connected h (hc.contains r hr) hcv hrr hv) (fun w hw => ?_)
      (hold htr)
    -- whoever has the leader of the circle is one of its nodes
    rw [representative_fuse hc.toFusable, representative_fuse hc.toFusable, if_pos hrr] at hw
    have hwc : f.graph.representative w ∈ cycle := by
      by_cases hwc : f.graph.representative w ∈ cycle
      · exact hwc
      · rw [if_neg hwc] at hw
        exact hw ▸ least_mem (List.ne_nil_of_mem hr)
    exact ⟨hc.admits h.wellFormed hwc, hc.mem_tokens hwc ⟨r, hr, htr⟩⟩
  · rw [if_neg hv] at hmem
    exact hold hmem

omit h in
/-- What was on its way is on its way to the circle, or the circle has it. -/
theorem Circle.onTheWay (htwo : 2 ≤ cycle.length)
    (hw : f.OnTheWay noTransit (f.graph.representative v) t) :
    t ∈ (f.fuse cycle).graph.tokens v ∨
      (f.fuse cycle).OnTheWay noTransit ((f.fuse cycle).graph.representative v) t := by
  have hw := onTheWay_noTransit.mp hw
  rw [representative_fuse hc.toFusable]
  by_cases hv : f.graph.representative v ∈ cycle
  · rw [if_pos hv]
    by_cases ht : ∃ r ∈ cycle, t ∈ f.graph.tokens r
    · exact .inl (hc.mem_tokens hv ht)
    · refine .inr (.inl ((waits_fuse hc.toFusable htwo).mpr (.inr (.inl ⟨rfl, ?_, _, hv, hw⟩))))
      exact fun r hr htr => ht ⟨r, hr, htr⟩
  · rw [if_neg hv]
    refine .inr (.inl ((waits_fuse hc.toFusable htwo).mpr (.inl ⟨hw, fun r hr e => hv ?_⟩)))
    cases e
    exact hr

/-- **Fusing a circle loses and invents nothing.** -/
theorem Inv.fuse : Inv sieve handed noTransit (f.fuse cycle) := by
  rcases length_lt_or_two_le cycle with hle | htwo
  · rw [fuse_of_length_le hle]
    exact h
  have hwf := h.wellFormed
  have hadm : ∀ v t, (f.fuse cycle).graph.Admits sieve v t ↔ f.graph.Admits sieve v t :=
    fun v t => admits_congr filter?_fuse
  have hjust : ∀ {v t}, Justified sieve handed f.graph t v →
      Justified sieve handed (f.fuse cycle).graph t v := fun hj =>
    hj.mono id successors_subset_fuse hc.keeps
  refine
    { wellFormed := wellFormed_fuse hc.toFusable hwf
      screened := fun v filter hv => h.screened v filter (by rw [filter?_fuse] at hv; exact hv)
      contains_handed := fun hh => by rw [contains_fuse]; exact h.contains_handed hh
      connected := fun {u v} hu hv e => ?_
      supported := hc.supported h
      arriving := fun {r t} hw => ?_
      linked := fun {u v t} hv ht ha => ?_
      handed := fun {v t} hh ha => ?_ }
  · rw [contains_fuse] at hu hv
    have hlead : ∀ {k}, f.graph.representative k ∉ cycle → f.graph.representative k ≠ least cycle :=
      fun hk e => hk (e ▸ least_mem_of_two_le htwo)
    rw [representative_fuse hc.toFusable, representative_fuse hc.toFusable] at e
    by_cases huc : f.graph.representative u ∈ cycle
    · by_cases hvc : f.graph.representative v ∈ cycle
      · exact hc.connected h hu hv huc hvc
      · rw [if_pos huc, if_neg hvc] at e
        exact absurd e.symm (hlead hvc)
    · by_cases hvc : f.graph.representative v ∈ cycle
      · rw [if_neg huc, if_pos hvc] at e
        exact absurd e (hlead huc)
      · rw [if_neg huc, if_neg hvc] at e
        refine path_mono successors_subset_fuse (fun e => ?_) (h.connected hu hv e)
        rw [representative_fuse hc.toFusable, representative_fuse hc.toFusable, e]
  · simp only [contains_fuse]
    rcases (waits_fuse hc.toFusable htwo).mp (onTheWay_noTransit.mp hw) with
      ⟨hold, hne⟩ | ⟨e, _, r', hr', hold⟩ | ⟨hall, m, hm, hmc, _, hpass⟩
    · obtain ⟨m, hm, hr, hj⟩ := h.arriving (.inl hold)
      refine ⟨m, hm, ?_, hjust hj⟩
      rw [representative_fuse hc.toFusable, hr, if_neg fun hrc => hne r hrc rfl]
    · cases e
      obtain ⟨m, hm, hr, hj⟩ := h.arriving (.inl hold)
      refine ⟨m, hm, ?_, hjust hj⟩
      rw [representative_fuse hc.toFusable, hr, if_pos hr']
    · rcases hpass with ⟨s, hs, e, _⟩ | ⟨l, _, e⟩
      · cases e
        rw [successors_fuse] at hs
        refine ⟨s, hwf.contains_successor hs, rfl, .inr ⟨m, successors_subset_fuse hs, ?_⟩⟩
        exact hc.supported h (hc.mem_tokens hmc hall)
      · cases e
  · rw [successors_fuse] at hv
    rw [hadm] at ha
    by_cases hold : t ∈ f.graph.tokens u
    · exact (h.linked hv hold ha).elim (fun ht => .inl (hc.subset_tokens_fuse ht))
        (hc.onTheWay htwo)
    · -- the token is new to `u`, which therefore passes it on
      by_cases htv : t ∈ (f.fuse cycle).graph.tokens v
      · exact .inl htv
      · have hmem := (mem_tokens_fuse hc.toFusable).mp ht
        by_cases huc : f.graph.representative u ∈ cycle
        · rw [if_pos huc] at hmem
          have hpass : (f.fuse cycle).graph.PassesTo u
              (.send ((f.fuse cycle).graph.representative v)) t :=
            .inl ⟨v, successors_subset_fuse hv, rfl, htv⟩
          exact .inr (.inl ((waits_fuse hc.toFusable htwo).mpr
            (.inr (.inr ⟨hmem, u, contains_of_mem_successors hv, huc, hold, hpass⟩))))
        · rw [if_neg huc] at hmem
          exact absurd hmem hold
  · rw [hadm] at ha
    exact (h.handed hh ha).elim (fun ht => .inl (hc.subset_tokens_fuse ht)) (hc.onTheWay htwo)

end Fuse

/-! ## 7. Condensing -/

/-- The cycles that a survey finds are circles of links. -/
theorem circle_of_found {roots : List NodeId} {s : Survey φ τ} (hs : Survey.Found g roots s)
    (hg : g.WellFormed) {c : List NodeId} (hc : c ∈ s.cycles) : Circle s.graph c := by
  refine { hs.fusable hg.grouped hc with round := fun a ha b hb => ?_ }
  obtain ⟨-, hmutual⟩ := hs.cycle c hc
  -- a path that comes back to `a` never leaves the cycle
  have hpath : ∀ {y}, g.Reaches a y → g.Reaches y a → ReflTransGen (fun x y => y ∈ c ∧
      ∃ m k, s.graph.contains m ∧ s.graph.representative m = x ∧ k ∈ s.graph.successors m ∧
        s.graph.representative k = y) a y := by
    intro y hay
    induction hay with
    | refl => exact fun _ => .refl
    | tail hax hxy ih =>
      intro hya
      have hxa := ReflTransGen.head hxy hya
      have hx := (hmutual a ha _).mpr ⟨hax, hxa⟩
      have hy := (hmutual a ha _).mpr ⟨hax.tail hxy, hya⟩
      obtain ⟨m, hm, k, hk, -, hrep, -⟩ := mem_logicalSuccessors.mp hxy
      have hreached := (hs.reached hc hx).contains_isFusable hg
      have hmx := (hg.mem_component hreached.1 (isFusable_iff.mp hreached.2).1).mp hm
      refine (ih hxa).tail ⟨hy, m, k, ?_, ?_, ?_, ?_⟩
      · rw [contains_of_unmarked hs.unmarked]
        exact hmx.1
      · rw [representative_of_unmarked hs.unmarked]
        exact hmx.2
      · rw [successors_of_unmarked hs.unmarked]
        exact hk
      · rw [representative_of_unmarked hs.unmarked]
        exact hrep
  obtain ⟨hab, hba⟩ := (hmutual a ha b).mp hb
  exact hpath hab hba

theorem Inv.foldl_fuse (cycles : List (List NodeId)) (f : Flow φ τ)
    (h : Inv sieve handed noTransit f) (hcircle : ∀ c ∈ cycles, Circle f.graph c)
    (hdis : cycles.Pairwise fun c c' => ∀ r ∈ c, r ∉ c') :
    Inv sieve handed noTransit (cycles.foldl Flow.fuse f) := by
  induction cycles generalizing f with
  | nil => exact h
  | cons c cycles ih =>
    have hc := hcircle c List.mem_cons_self
    obtain ⟨hdc, hdis⟩ := List.pairwise_cons.mp hdis
    refine ih (f.fuse c) (Inv.fuse hc h) (fun c' hc' => ?_) hdis
    exact Circle.fuse_of_disjoint hc.toFusable (hcircle c' (List.mem_cons_of_mem _ hc'))
      fun r hr hrc => hdc c' hc' r hrc hr

/-- **A pass loses and invents nothing.** -/
theorem Inv.condense (h : Inv sieve handed noTransit f) (roots : List NodeId) :
    Inv sieve handed noTransit (f.condense roots).2 := by
  have hs := Survey.run_spec h.wellFormed roots
  refine Inv.foldl_fuse _ _ ?_ (fun c hc => circle_of_found hs h.wellFormed hc) hs.disjoint
  exact h.of_readings (h.wellFormed.of_unmarked hs.unmarked)
    (fun v => contains_of_unmarked hs.unmarked) (fun v => representative_of_unmarked hs.unmarked)
    (fun v => stored_of_unmarked hs.unmarked) (fun v => successors_of_unmarked hs.unmarked)
    (fun v => filter?_of_unmarked hs.unmarked) fun r t => Iff.rfl

end ValueFlow.Flow
