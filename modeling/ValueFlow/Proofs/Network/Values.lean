import ValueFlow.Proofs.Flow.Interleaving
import ValueFlow.Proofs.Network.Rounds

/-!
# The values of a network

When no work is left, the commands that the flow has seen are the network once more, with nodes in
the place of entities (`Network.Mirror`). The equations of the run are then those of the network,
and their least solution, which the flow has reached, is the least solution for the network.
-/

namespace ValueFlow.Network

open ValueFlow.Flow

variable {ε τ σ : Type} [Ordered τ]

/-- **The commands say of the nodes what the network says of their entities.** -/
structure Mirror (p : Network ε τ) (roots : List ε) (s : σ) (cs : List (Command (Filter σ τ) τ))
    (w : World ε τ σ) : Prop where
  reachable : ∀ v, (∃ n, w.At v n) ↔ p.Reachable roots v
  keeps : ∀ {v n}, w.At v n → ∀ t, Keeps (sieveAt s) cs n t ↔ p.Admits v t
  handed : ∀ n t, Handed cs n t ↔ ∃ v, w.At v n ∧ t ∈ p.seeds v
  linked : ∀ m n, .link m n ∈ cs ↔ ∃ u v, w.At u m ∧ w.At v n ∧ (u, v) ∈ p.edges

/-- The values of an entity: the tokens of its node. -/
def valuesIn (w : World ε τ σ) (Y : NodeId → Set τ) (v : ε) : Set τ :=
  { t | ∃ n, w.At v n ∧ t ∈ Y n }

/-- The tokens of a node: the values of its entity. -/
def tokensIn (w : World ε τ σ) (X : ε → Set τ) (n : NodeId) : Set τ :=
  { t | ∃ v, w.At v n ∧ t ∈ X v }

variable {p : Network ε τ} {roots : List ε} {s : σ} {cs : List (Command (Filter σ τ) τ)}
  {w : World ε τ σ}

theorem At.inj {u v : ε} {n : NodeId} (hu : w.At u n) (hv : w.At v n) : u = v :=
  Option.some.inj (hu.symm.trans hv)

/-! ## 1. Equations of nodes and of entities -/

/-- A solution for the nodes is one for the entities. -/
theorem Mirror.solves_valuesIn (h : Mirror p roots s cs w) {Y : NodeId → Set τ}
    (hY : ValueFlow.Solves (sieveAt s) cs Y) : p.Solves roots (valuesIn w Y) := by
  intro v
  ext t
  constructor
  · intro hv
    obtain ⟨n, hn, ht⟩ := hv
    rw [hY n] at ht
    obtain ⟨hkeeps, hfrom⟩ := ht
    refine ⟨(h.reachable v).mp ⟨n, hn⟩, (h.keeps hn t).mp hkeeps, ?_⟩
    rcases hfrom with hhanded | ⟨m, hlink, ht⟩
    · obtain ⟨v', hv', hseed⟩ := (h.handed n t).mp hhanded
      exact .inl (At.inj hv' hn ▸ hseed)
    · obtain ⟨u, v', hu, hv', he⟩ := (h.linked m n).mp hlink
      refine .inr ⟨u, At.inj hv' hn ▸ he, (h.reachable u).mp ⟨m, hu⟩, m, hu, ht⟩
  · intro ht
    obtain ⟨hr, hkeeps, hfrom⟩ := ht
    obtain ⟨n, hn⟩ := (h.reachable v).mpr hr
    refine ⟨n, hn, ?_⟩
    rw [hY n]
    refine ⟨(h.keeps hn t).mpr hkeeps, ?_⟩
    rcases hfrom with hseed | ⟨u, he, _, m, hu, ht⟩
    · exact .inl ((h.handed n t).mpr ⟨v, hn, hseed⟩)
    · exact .inr ⟨m, (h.linked m n).mpr ⟨u, v, hu, hn, he⟩, ht⟩

/-- A solution for the entities is one for the nodes. -/
theorem Mirror.solves_tokensIn (h : Mirror p roots s cs w) {X : ε → Set τ}
    (hX : p.Solves roots X) : ValueFlow.Solves (sieveAt s) cs (tokensIn w X) := by
  intro n
  ext t
  constructor
  · intro hn
    obtain ⟨v, hv, ht⟩ := hn
    rw [hX v] at ht
    obtain ⟨_, hkeeps, hfrom⟩ := ht
    refine ⟨(h.keeps hv t).mpr hkeeps, ?_⟩
    rcases hfrom with hseed | ⟨u, he, hu, ht⟩
    · exact .inl ((h.handed n t).mpr ⟨v, hv, hseed⟩)
    · obtain ⟨m, hm⟩ := (h.reachable u).mpr hu
      exact .inr ⟨m, (h.linked m n).mpr ⟨u, v, hm, hv, he⟩, u, hm, ht⟩
  · intro ht
    obtain ⟨hkeeps, hfrom⟩ := ht
    rcases hfrom with hhanded | ⟨m, hlink, u', hu', ht⟩
    · obtain ⟨v, hv, hseed⟩ := (h.handed n t).mp hhanded
      refine ⟨v, hv, ?_⟩
      rw [hX v]
      exact ⟨(h.reachable v).mp ⟨n, hv⟩, (h.keeps hv t).mp hkeeps, .inl hseed⟩
    · obtain ⟨u, v, hu, hv, he⟩ := (h.linked m n).mp hlink
      refine ⟨v, hv, ?_⟩
      rw [hX v]
      refine ⟨(h.reachable v).mp ⟨n, hv⟩, (h.keeps hv t).mp hkeeps,
        .inr ⟨u, he, (h.reachable u).mp ⟨m, hu⟩, ?_⟩⟩
      exact At.inj hu' hu ▸ ht

/-- **The least solution for the nodes is the least for the entities.** -/
theorem Mirror.isLeast (h : Mirror p roots s cs w) {Y : NodeId → Set τ}
    (hY : IsLeast { Y | ValueFlow.Solves (sieveAt s) cs Y } Y) :
    IsLeast { X | p.Solves roots X } (valuesIn w Y) := by
  refine ⟨h.solves_valuesIn hY.1, fun X hX v t ht => ?_⟩
  obtain ⟨n, hn, ht⟩ := ht
  obtain ⟨v', hv', ht⟩ := hY.2 (h.solves_tokensIn hX) n ht
  exact At.inj hv' hn ▸ ht

/-! ## 2. Without work, the commands mirror the network -/

variable [DecidableEq ε]

theorem Stage.at_unique {bags : List (Bag WorkItem)} (h : Stage p roots s cs bags w) {v : ε}
    {m n : NodeId} (hm : w.At v m) (hn : w.At v n) : m = n :=
  NodeId.index_inj.mp ((List.getElem?_inj hm.lt h.plain.nodup).mp (hm.trans hn.symm))

theorem passes_keeping (s : σ) (rule : τ → Bool) (t : τ) :
    Passes (sieveAt s) (keeping rule) t ↔ rule t = true := by
  unfold Passes sieveAt keeping
  rw [SortedSet.mem_filter, SortedSet.mem_singleton]
  exact and_iff_right rfl

/-- Without work, all entities are linked to their successors. -/
theorem Complete.joined (h : p.Complete roots s cs [] w) (hidle : w.flow.agenda.next.present = [])
    {v : ε} {n : NodeId} (hv : w.At v n) : Joined w n (p.successors v) := by
  rcases (h.covered hv).2 with hjoined | ⟨task, _, hdue⟩
  · exact hjoined
  · rcases hdue with hdue | ⟨bag, hbag, _⟩
    · rw [hidle] at hdue
      exact absurd hdue List.not_mem_nil
    · exact absurd hbag List.not_mem_nil

/-- Without work, the entities that are known are those that can be reached. -/
theorem Complete.reachable_iff (h : p.Complete roots s cs [] w)
    (hidle : w.flow.agenda.next.present = []) (hroots : ∀ r ∈ roots, r ∈ w.entities) (v : ε) :
    v ∈ w.entities ↔ p.Reachable roots v := by
  refine ⟨h.reachable v, fun hr => ?_⟩
  induction hr with
  | root hv => exact hroots _ hv
  | edge _ he ih =>
    obtain ⟨i, hi⟩ := List.mem_iff_getElem?.mp ih
    obtain ⟨m, hm, _⟩ := h.joined hidle (n := ⟨i⟩) hi _ (mem_successors.mpr he)
    exact hm.mem

/-- **Without work, the commands mirror the network.** -/
theorem Complete.mirror (h : p.Complete roots s cs [] w)
    (hidle : w.flow.agenda.next.present = []) (hroots : ∀ r ∈ roots, r ∈ w.entities) :
    Mirror p roots s cs w := by
  obtain ⟨order, hrun⟩ := h.run
  refine ⟨fun v => ?_, fun {v n} hv t => ⟨fun hk rule hr => ?_, fun hk filter hf => ?_⟩,
    fun n t => ⟨fun hh => ?_, fun hh => ?_⟩, fun m n => ⟨fun hl => ?_, fun hl => ?_⟩⟩
  · rw [← h.reachable_iff hidle hroots v, List.mem_iff_getElem?]
    exact ⟨fun ⟨n, hn⟩ => ⟨n.index, hn⟩, fun ⟨i, hi⟩ => ⟨⟨i⟩, hi⟩⟩
  · exact (passes_keeping s rule t).mp (hk _ ((h.covered hv).1.2 rule hr))
  · obtain ⟨u, rule, hu, hr, rfl⟩ := h.asked _ hf
    have e : u = v := At.inj hu hv
    exact (passes_keeping s rule t).mpr (hk rule (e ▸ hr))
  · obtain ⟨tokens, hc | hc, ht⟩ := hh
    · obtain ⟨v, hv, rfl⟩ := h.asked _ hc
      exact ⟨v, hv, ht⟩
    · exact (h.asked _ hc).elim
  · obtain ⟨v, hv, ht⟩ := hh
    exact ⟨p.seeds v, .inl (h.covered hv).1.1, ht⟩
  · exact h.asked _ hl
  · obtain ⟨u, v, hu, hv, he⟩ := hl
    obtain ⟨n', hn', hl⟩ := h.joined hidle hu v (mem_successors.mpr he)
    rw [← hrun.inv.links, h.at_unique hv hn']
    exact hl

/-- **Without work, the tokens of the nodes are the least solution for the entities.** -/
theorem Complete.isLeast (h : p.Complete roots s cs [] w)
    (hidle : w.flow.agenda.next.present = []) (hroots : ∀ r ∈ roots, r ∈ w.entities) :
    IsLeast { X | p.Solves roots X } (valuesIn w fun n => { t | t ∈ w.flow.graph.tokens n }) := by
  obtain ⟨order, hrun⟩ := h.run
  exact (h.mirror hidle hroots).isLeast
    (hrun.inv.isLeast ⟨Bag.hasWork_eq_false.mpr hidle, rfl⟩)

end ValueFlow.Network
