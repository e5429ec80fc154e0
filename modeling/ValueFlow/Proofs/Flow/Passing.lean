import ValueFlow.Flow.Basic
import ValueFlow.Proofs.Graph.WellFormed
import ValueFlow.Proofs.Work.Agenda

/-!
# Passing tokens on

What an offer and a forwarding add to the agenda, token by token. `Graph.PassesTo` names the items
that a node hands a token to; everything that forwards from several nodes is a fold, and
`Agenda.waits_foldl` reads it off a single step. Properties of the agenda that outlive posts
(`Agenda.Growing`) are kept by all of it.
-/

namespace ValueFlow

variable {φ τ : Type} [Ordered τ] {g : Graph φ τ} {a : Agenda τ} {n : NodeId} {item : WorkItem}
  {tokens : TokenSet τ} {t : τ}

/-! ## 1. Folds over an agenda -/

/-- **If every step only adds**, a fold adds what its steps add. -/
theorem Agenda.waits_foldl {β : Type} {step : Agenda τ → β → Agenda τ}
    {adds : β → WorkItem → τ → Prop}
    (hstep : ∀ a b item t, (step a b).Waits item t ↔ a.Waits item t ∨ adds b item t)
    (bs : List β) (a : Agenda τ) (item : WorkItem) (t : τ) :
    (bs.foldl step a).Waits item t ↔ a.Waits item t ∨ ∃ b ∈ bs, adds b item t := by
  induction bs generalizing a with
  | nil => simp
  | cons b bs ih =>
    rw [List.foldl_cons, ih, hstep, or_assoc]
    refine or_congr_right ⟨?_, ?_⟩
    · rintro (h | ⟨c, hc, h⟩)
      · exact ⟨b, List.mem_cons_self, h⟩
      · exact ⟨c, List.mem_cons_of_mem _ hc, h⟩
    · rintro ⟨c, hc, h⟩
      rcases List.mem_cons.mp hc with rfl | hc
      · exact .inl h
      · exact .inr ⟨c, hc, h⟩

namespace Graph

/-! ## 2. Offers -/

/-- **An offer adds the tokens that the node lacks** to what waits for its representative. -/
theorem waits_offer : (g.offer a n tokens).2.Waits item t ↔
    a.Waits item t ∨ (item = .send (g.representative n) ∧ t ∈ tokens ∧ t ∉ g.tokens n) := by
  unfold offer
  dsimp only
  by_cases he : (tokens \ g.stored (g.representative n)).isEmpty
  · rw [if_pos he]
    rw [SortedSet.isEmpty_eq_true] at he
    refine ⟨.inl, fun h => h.elim id fun h => absurd ?_ (he t)⟩
    exact SortedSet.mem_diff.mpr h.2
  · rw [if_neg he, Agenda.waits_post, SortedSet.mem_diff]
    rfl

theorem growing_offer {P : Agenda τ → Prop} (hP : Agenda.Growing P) (h : P a) :
    P (g.offer a n tokens).2 := by
  unfold offer
  dsimp only
  split
  · exact h
  · exact hP.post _ rfl h

/-! ## 3. Forwarding -/

/-- The items that the node `n` hands a token to: the successors that lack it, and all listeners. -/
def PassesTo (g : Graph φ τ) (n : NodeId) (item : WorkItem) (t : τ) : Prop :=
  (∃ s ∈ g.successors n, item = .send (g.representative s) ∧ t ∉ g.tokens s) ∨
    ∃ l ∈ g.listeners n, item = .notify n l

theorem waits_forward : (g.forward a n tokens).Waits item t ↔
    a.Waits item t ∨ (t ∈ tokens ∧ g.PassesTo n item t) := by
  unfold forward PassesTo
  dsimp only
  rw [Agenda.waits_foldl fun a l _ _ => @Agenda.waits_post τ _ a (.notify n l) _ tokens _,
    Agenda.waits_foldl fun a s _ _ => waits_offer (a := a) (n := s), or_assoc]
  refine or_congr_right ⟨?_, ?_⟩
  · rintro (⟨s, hs, he, ht, hn⟩ | ⟨l, hl, he, ht⟩)
    · exact ⟨ht, .inl ⟨s, hs, he, hn⟩⟩
    · exact ⟨ht, .inr ⟨l, hl, he⟩⟩
  · rintro ⟨ht, ⟨s, hs, he, hn⟩ | ⟨l, hl, he⟩⟩
    · exact .inl ⟨s, hs, he, ht, hn⟩
    · exact .inr ⟨l, hl, he, ht⟩

theorem growing_forward {P : Agenda τ → Prop} (hP : Agenda.Growing P) (h : P a) :
    P (g.forward a n tokens) := by
  unfold forward
  dsimp only
  refine List.foldlRecOn _ _ ?_ fun a ha l _ => hP.post _ rfl ha
  exact List.foldlRecOn _ _ h fun a ha s _ => growing_offer hP ha

theorem waits_foldl_forward (ns : List NodeId) :
    (ns.foldl (fun a m => g.forward a m tokens) a).Waits item t ↔
      a.Waits item t ∨ (t ∈ tokens ∧ ∃ m ∈ ns, g.PassesTo m item t) := by
  rw [Agenda.waits_foldl (fun a m item t => waits_forward (a := a) (n := m))]
  refine or_congr_right ⟨?_, ?_⟩
  · rintro ⟨m, hm, ht, h⟩
    exact ⟨ht, m, hm, h⟩
  · rintro ⟨ht, m, hm, h⟩
    exact ⟨m, hm, ht, h⟩

theorem growing_foldl_forward {P : Agenda τ → Prop} (hP : Agenda.Growing P) (ns : List NodeId)
    (h : P a) : P (ns.foldl (fun a m => g.forward a m tokens) a) :=
  List.foldlRecOn _ _ h fun _ ha _ _ => growing_forward hP ha

end Graph

end ValueFlow
