import Mathlib.Order.Bounds.Basic
import Mathlib.Data.Set.Basic
import ValueFlow.Proofs.Flow.Machine

/-!
# Any order of work leads to the least solution

What was asked for in a run is a system of equations: a node has the tokens that its filter admits
among those that were handed to it and those that its predecessors have (`Solves`). Along every
run, no token that a link should have carried is missed, and when no work is left, the tokens are
the least solution (`Machine.Inv.isLeast`), whatever the order of the steps was.
-/

namespace ValueFlow

open ValueFlow.Flow

variable {φ τ : Type} [Ordered τ]

/-- The filter that was put on the node, if any, lets the token through. -/
def Keeps (sieve : φ → TokenSet τ → TokenSet τ) (cs : List (Command φ τ)) (v : NodeId) (t : τ) :
    Prop :=
  ∀ filter, .setFilter v filter ∈ cs → Passes sieve filter t

/-- **The equations of a run**: what its commands say of the tokens of every node. -/
def Solves (sieve : φ → TokenSet τ → TokenSet τ) (cs : List (Command φ τ))
    (X : NodeId → Set τ) : Prop :=
  ∀ v, X v = { t | Keeps sieve cs v t ∧ (Handed cs v t ∨ ∃ u, .link u v ∈ cs ∧ t ∈ X u) }

namespace Machine

variable {sieve : φ → TokenSet τ → TokenSet τ} {cs : List (Command φ τ)} {c : Command φ τ}
  {m m' : Machine φ τ} {order : BagOrder}

/-- Without work, no token is on its way. -/
theorem Inv.not_onTheWay (h : Inv sieve cs m) (hq : m.Quiet) (r : NodeId) (t : τ) :
    ¬ m.flow.OnTheWay noTransit r t := by
  intro hw
  refine Agenda.Kept.not_waits (h.kept.mono fun item hitem => ?_) hq.1 _ t
    (onTheWay_noTransit.mp hw)
  obtain ⟨bag, hbag, _⟩ := hitem
  rw [hq.2] at hbag
  exact List.not_mem_nil hbag

theorem Inv.keeps_iff (h : Inv sieve cs m) (v : NodeId) (t : τ) :
    Keeps sieve cs v t ↔ m.flow.graph.Admits sieve v t :=
  forall_congr' fun filter => imp_congr_left (h.filters v filter).symm

/-- What has come to a node is in every solution. -/
theorem Inv.mem_of_supported (h : Inv sieve cs m) {X : NodeId → Set τ} (hX : Solves sieve cs X)
    {v : NodeId} {t : τ} (hs : Supported sieve (Handed cs) m.flow.graph t v) : t ∈ X v := by
  induction hs with
  | hand hh ha _ =>
    rw [hX]
    exact ⟨(h.keeps_iff _ t).mpr ha, .inl hh⟩
  | @flow u v _ hv ha _ ih =>
    rw [hX]
    exact ⟨(h.keeps_iff _ t).mpr ha, .inr ⟨u, (h.links u v).mp hv, ih⟩⟩

/-- **Without work, the tokens are the least solution.** -/
theorem Inv.isLeast (h : Inv sieve cs m) (hq : m.Quiet) :
    IsLeast { X | Solves sieve cs X } fun v => { t | t ∈ m.flow.graph.tokens v } := by
  have hsettled : ∀ {v t}, t ∈ m.flow.graph.tokens v ∨
      m.flow.OnTheWay noTransit (m.flow.graph.representative v) t → t ∈ m.flow.graph.tokens v :=
    fun hv => hv.elim id fun hw => absurd hw (h.not_onTheWay hq _ _)
  refine ⟨fun v => Set.ext fun t => ⟨fun ht => ?_, ?_⟩, fun X hX v t ht => ?_⟩
  · have hs := h.flow.supported ht
    refine ⟨(h.keeps_iff v t).mpr hs.admits, ?_⟩
    cases hs with
    | hand hh _ _ => exact .inl hh
    | @flow u _ hu hv _ _ =>
      refine .inr ⟨u, (h.links u v).mp hv, ?_⟩
      cases hu with
      | hand _ _ htu => exact htu
      | flow _ _ _ htu => exact htu
  · rintro ⟨hk, hh | ⟨u, hu, ht⟩⟩
    · exact hsettled (h.flow.handed hh ((h.keeps_iff v t).mp hk))
    · exact hsettled (h.flow.linked ((h.links u v).mpr hu) ht ((h.keeps_iff v t).mp hk))
  · exact h.mem_of_supported hX (h.flow.supported ht)

/-- Filters that keep the tokens below a bound. -/
def keepBelow (bound : Nat) (tokens : TokenSet Nat) : TokenSet Nat := tokens.filter (· < bound)

/-- Two nodes that are linked in a circle, the second of them with a filter, and tokens for the
first. -/
def smallRun : List (Command Nat Nat) :=
  [.addNode none, .addNode none, .setFilter ⟨1⟩ 7, .link ⟨0⟩ ⟨1⟩, .link ⟨1⟩ ⟨0⟩,
    .deliver ⟨0⟩ (.ofList [5, 9])]

/-- The machine after `smallRun`. -/
def smallMachine : Machine Nat Nat :=
  let f : Flow Nat Nat := ((Flow.addNode (.empty .fifo) none).2.addNode none).2
  let f := { f with graph := f.graph.modify ⟨1⟩ fun v => { v with filter := some 7 } }
  let f := ((f.link keepBelow ⟨0⟩ ⟨1⟩).2.link keepBelow ⟨1⟩ ⟨0⟩).2
  ⟨(f.deliver keepBelow ⟨0⟩ (.ofList [5, 9])).2, []⟩

theorem run_small : Run keepBelow .fifo smallRun smallMachine := by
  have hretains : Retains keepBelow 7 := ⟨fun t => t < 7, fun _ => rfl⟩
  have h₂ : Run keepBelow .fifo [.addNode none, .addNode none] _ :=
    .step (.step .start (.addNode _ none)) (.addNode _ none)
  have h₃ := Run.step h₂
    (.setFilter _ (n := ⟨1⟩) (by decide) hretains (by decide) (by decide) rfl)
  have h₅ := Run.step (.step h₃ (.link _ (u := ⟨0⟩) (v := ⟨1⟩) (by decide) (by decide)))
    (.link _ (u := ⟨1⟩) (v := ⟨0⟩) (by decide) (by decide))
  exact Run.step h₅ (.deliver _ (n := ⟨0⟩) (.ofList [5, 9]) (by decide))

/-- **Every run that ends without work ends in the least solution of its equations**, and so runs
that ask for the same end with the same tokens. -/
theorem run_isLeast (h : Run sieve order cs m) (hq : m.Quiet) :
    IsLeast { X | Solves sieve cs X } (fun v => { t | t ∈ m.flow.graph.tokens v }) ∧
      ∀ (order' : BagOrder) (cs' : List (Command φ τ)) (m' : Machine φ τ),
        Run sieve order' cs' m' → m'.Quiet → (∀ u v, .link u v ∈ cs' ↔ .link u v ∈ cs) →
        (∀ v t, Handed cs' v t ↔ Handed cs v t) →
        (∀ v filter, .setFilter v filter ∈ cs' ↔ .setFilter v filter ∈ cs) →
        ∀ v, m'.flow.graph.tokens v = m.flow.graph.tokens v := by
  refine ⟨h.inv.isLeast hq, fun order' cs' m' h' hq' hlinks hhanded hfilters v => ?_⟩
  have hsame : ∀ X, Solves sieve cs' X ↔ Solves sieve cs X := fun X =>
    forall_congr' fun v => by simp only [Keeps, hlinks, hhanded, hfilters]
  have hset : { X | Solves sieve cs' X } = { X | Solves sieve cs X } := Set.ext hsame
  have hleast := h'.inv.isLeast hq'
  rw [hset] at hleast
  have htokens := congrFun (hleast.unique (h.inv.isLeast hq)) v
  exact SortedSet.ext fun t => Set.ext_iff.mp htokens t

/-- One round later, with a pass in the middle of it, no work is left. -/
theorem run_isLeast_small : ∃ cs m, Run keepBelow .fifo cs m ∧ m.Quiet ∧
    IsLeast { X | Solves keepBelow cs X } (fun v => { t | t ∈ m.flow.graph.tokens v }) ∧
    5 ∈ m.flow.graph.tokens ⟨1⟩ ∧ 9 ∉ m.flow.graph.tokens ⟨1⟩ := by
  have h₁ := Run.step (.step run_small (.beginRound _ rfl)) (.condense _ [⟨0⟩, ⟨1⟩])
  have h₂ := Run.step (.step h₁ (.execute _ [] [] rfl)) (.finish _ [] [] (by decide +kernel))
  refine ⟨_, _, h₂, ?quiet, (run_isLeast h₂ ?quiet).1, by decide +kernel, by decide +kernel⟩
  exact ⟨by decide +kernel, rfl⟩

/-- **No token is missed by a link**, at any time: where the source has it and the target admits
it, the target has it or it waits for the target. That the source admits what it has need not be
asked for. -/
theorem run_linked (h : Run sieve order cs m) {u v : NodeId} {t : τ}
    (hv : v ∈ m.flow.graph.successors u) (ht : t ∈ m.flow.graph.tokens u)
    (ha : m.flow.graph.Admits sieve v t) :
    t ∈ m.flow.graph.tokens v ∨
      ∃ delta, m.flow.agenda.delta? (.send (m.flow.graph.representative v)) = some delta ∧
        t ∈ delta :=
  (h.inv.flow.linked hv ht ha).imp id onTheWay_noTransit.mp

theorem run_linked_small : ∃ delta,
    smallMachine.flow.agenda.delta? (.send ⟨1⟩) = some delta ∧ 5 ∈ delta := by
  have hadmits : smallMachine.flow.graph.Admits keepBelow ⟨1⟩ 5 := fun filter hf => by
    have e : filter = 7 := (Option.some.inj (hf.symm.trans (by rfl)))
    rw [e]
    show 5 ∈ keepBelow 7 (.singleton 5)
    decide
  rcases run_linked run_small (u := ⟨0⟩) (v := ⟨1⟩) (t := 5) (by decide) (by decide) hadmits with
    h | h
  · exact absurd h (by decide)
  · exact h

end Machine

end ValueFlow
