import Mathlib.Data.Set.Finite.Lattice
import ValueFlow.Filter
import ValueFlow.Proofs.Flow.Histories
import ValueFlow.Proofs.Flow.Progress

/-!
# Work comes to an end

The loop that works a flow off: begin a round, execute all items of its bag, condense cycles or not,
and so on until nothing is queued. Where links lead to nodes and filters decide token by token, no
step of it is refused, and the loop ends after a number of rounds that does not depend on when and
from where cycles are condensed (`Reachable.turns_end`).

There is nothing in the queue that decreases: an item may be executed in vain, execution queues new
items, and so does condensing. But only finitely many facts can become true of a graph that gets no
new nodes and no new tokens (`Confined`), and a turn that adds none of them leaves nothing queued.
-/

namespace ValueFlow

open ValueFlow.Graph

variable {φ τ : Type} [Ordered τ]

/-- No link of a well-formed graph leads nowhere. -/
theorem Graph.dangling_eq_false {g : Graph φ τ} (hg : g.WellFormed) (r : NodeId) :
    g.dangling r = false := by
  unfold Graph.dangling
  rw [List.any_eq_false]
  intro m _
  simpa using fun s hs => hg.contains_successor hs

/-- Only finitely many tokens are at nodes. -/
theorem Graph.finite_tokens {g : Graph φ τ} (hg : g.WellFormed) :
    { t | ∃ n, t ∈ g.tokens n }.Finite := by
  refine ((NodeId.finite_lt g.size).biUnion fun n _ =>
    List.finite_toSet (g.tokens n).elements).subset ?_
  rintro t ⟨n, ht⟩
  exact Set.mem_biUnion (contains_iff.mp (contains_of_mem_tokens hg ht)) ht

/-- Only finitely many tokens wait. -/
theorem Agenda.finite_waits (a : Agenda τ) : { t | ∃ item, a.Waits item t }.Finite := by
  have hrows : ∀ (rows : List (WorkItem × TokenSet τ)) (item : WorkItem) (delta : TokenSet τ),
      Table.getRow item rows = some delta → ∃ row ∈ rows, row.2 = delta := by
    intro rows item delta
    induction rows with
    | nil => exact nofun
    | cons row rows ih =>
      unfold Table.getRow
      split
      · exact fun h => ⟨row, List.mem_cons_self, Option.some.inj h⟩
      · intro h
        obtain ⟨row', hrow', e⟩ := ih h
        exact ⟨row', List.mem_cons_of_mem _ hrow', e⟩
  refine ((List.finite_toSet a.deltas.rows).biUnion fun row _ =>
    List.finite_toSet row.2.elements).subset ?_
  rintro t ⟨item, delta, hd, ht⟩
  obtain ⟨row, hrow, rfl⟩ := hrows _ _ _ hd
  exact Set.mem_biUnion hrow ht

namespace Flow

variable (sieve : φ → TokenSet τ → TokenSet τ)

/-! ## 1. The loop -/

/-- **One turn of the loop**: a round, and then a pass if one is wanted, from the roots that are
given for it. Without work nothing happens. -/
def turn? (pass : Option (List NodeId)) (f : Flow φ τ) : Option (Flow φ τ) :=
  match f.agenda.startRound with
  | none => some f
  | some (bag, agenda) => do
    let (_, f) ← executeItems? sieve bag.size bag { f with agenda }
    match pass with
    | none => some f
    | some roots => (f.condense? roots).map Prod.snd

/-- **The loop**, for a number of turns. Whether a pass follows, and from which roots, is chosen
after each of them anew. -/
def turns? (passes : Nat → Flow φ τ → Option (List NodeId)) : Nat → Flow φ τ → Option (Flow φ τ)
  | 0, f => some f
  | count + 1, f => (turns? passes count f).bind fun f => turn? sieve (passes count f) f

variable {sieve} {f f' : Flow φ τ} {item : WorkItem} {size : Nat} {T : Set τ}

/-! ## 2. Nothing is refused -/

theorem deliver?_eq (hg : f.graph.WellFormed) {n : NodeId} (hn : f.graph.contains n)
    (tokens : TokenSet τ) : f.deliver? sieve n tokens = some (f.deliver sieve n tokens) := by
  unfold deliver?
  dsimp only
  rw [Graph.dangling_eq_false hg, Bool.and_false, Bool.or_false, hn]
  rfl

theorem execute?_eq (hg : f.graph.WellFormed)
    (hn : ∀ {n tokens}, f.agenda.delta? (.send n) = some tokens → f.graph.contains n) :
    f.execute? sieve item = some (f.execute sieve item) := by
  unfold execute?
  split
  · rename_i n tokens hd
    rw [deliver?_eq hg (hn hd)]
    rfl
  · rfl

theorem condense?_eq (hg : f.graph.WellFormed) (roots : List NodeId) :
    f.condense? roots = some (f.condense roots) := by
  have hg' := hg.of_unmarked (Survey.run_spec hg roots).unmarked
  unfold condense?
  dsimp only
  rw [if_neg]
  simp [Graph.dangling_eq_false hg']

/-! ## 3. Nothing comes from outside -/

/-- **The flow is confined**: its nodes are the first `size` ones, and the tokens at nodes and on
their way to nodes are among `T`. -/
structure Confined (size : Nat) (T : Set τ) (f : Flow φ τ) : Prop where
  node : ∀ {n}, f.graph.contains n → n.index < size
  token : ∀ {n t}, t ∈ f.graph.tokens n → t ∈ T
  waiting : ∀ {n t}, f.agenda.Waits (.send n) t → t ∈ T

theorem confined_self (h : Sturdy sieve f) : ∃ T : Set τ, T.Finite ∧
    Confined f.graph.size T f := by
  refine ⟨{ t | ∃ n, t ∈ f.graph.tokens n } ∪ { t | ∃ item, f.agenda.Waits item t },
    (Graph.finite_tokens h.wellFormed).union f.agenda.finite_waits, ?_⟩
  exact ⟨contains_iff.mp, fun ht => .inl ⟨_, ht⟩, fun hw => .inr ⟨_, hw⟩⟩

theorem Confined.facts_subset (hc : Confined size T f) (h : Sturdy sieve f) :
    f.graph.facts ⊆ { x | x.Within size T } :=
  fun _ hx => Graph.facts_within h.wellFormed (fun _ => hc.node) (fun _ _ => hc.token) hx

theorem Confined.of_agenda {a : Agenda τ} (hc : Confined size T f)
    (hwaits : ∀ n t, a.Waits (.send n) t → f.agenda.Waits (.send n) t) :
    Confined size T { f with agenda := a } :=
  ⟨hc.node, hc.token, fun hw => hc.waiting (hwaits _ _ hw)⟩

theorem Confined.deliver (hc : Confined size T f) (h : Sturdy sieve f) {n : NodeId}
    (hn : f.graph.contains n) {tokens : TokenSet τ} (htokens : ∀ t ∈ tokens, t ∈ T) :
    Confined size T (f.deliver sieve n tokens).2 := by
  have hgain : ∀ t, t ∈ f.gain sieve n tokens → t ∈ T := fun t ht =>
    htokens t ((mem_gain h.wellFormed h.screened).mp ht).1
  refine ⟨fun hm => hc.node (contains_deliver.symm.trans hm), fun ht => ?_, fun hw => ?_⟩
  · rcases (mem_tokens_deliver h.wellFormed.grouped hn).mp ht with ht | ⟨-, ht⟩
    · exact hc.token ht
    · exact hgain _ ht
  · rcases (waits_deliver h.wellFormed h.screened hn).mp hw with hw | ⟨ht, -⟩
    · exact hc.waiting hw
    · exact hgain _ ht

theorem Confined.execute (hc : Confined size T f) (h : Sturdy sieve f) (item : WorkItem) :
    Confined size T (f.execute sieve item).2 := by
  have hcollect : Confined size T { f with agenda := (f.agenda.collect item).2 } :=
    hc.of_agenda fun n t hw => (Agenda.waits_collect.mp hw).2
  refine execute_cases item (fun _ => hcollect) fun n tokens hitem hd => ?_
  subst hitem
  exact hcollect.deliver (h.collect _) (h.contains hd) fun t ht => hc.waiting ⟨tokens, hd, ht⟩

theorem Confined.fuse (hc : Confined size T f) {cycle : List NodeId}
    (hfus : Fusable f.graph cycle) : Confined size T (f.fuse cycle) := by
  refine ⟨fun hm => hc.node (contains_fuse.symm.trans hm), fun ht => ?_, fun hw => ?_⟩
  · rw [mem_tokens_fuse hfus] at ht
    split at ht
    · obtain ⟨r, -, ht⟩ := ht
      exact hc.token ht
    · exact hc.token ht
  · rcases length_lt_or_two_le cycle with hle | htwo
    · rw [fuse_of_length_le hle] at hw
      exact hc.waiting hw
    · rcases (waits_fuse hfus htwo).mp hw with ⟨hw, -⟩ | ⟨-, -, r, -, hw⟩ | ⟨⟨r, -, ht⟩, -⟩
      · exact hc.waiting hw
      · exact hc.waiting hw
      · exact hc.token ht

theorem Confined.condense (hc : Confined size T f) (h : Sturdy sieve f) (roots : List NodeId) :
    Confined size T (f.condense roots).2 := by
  refine condense_induction h.wellFormed.grouped roots (fun g hu => ?_)
    fun f' c hfus hf' => hf'.fuse hfus
  refine ⟨fun hm => hc.node ((contains_of_unmarked hu).symm.trans hm), fun ht => ?_, hc.waiting⟩
  change _ ∈ g.tokens _ at ht
  unfold Graph.tokens at ht
  rw [representative_of_unmarked hu, stored_of_unmarked hu] at ht
  exact hc.token ht

/-! ## 4. A turn adds a fact or leaves no work -/

/-- **Executing a bag** is not refused, and queues something only where a fact is new. -/
theorem Sturdy.executeItems (count : Nat) : ∀ (bag : Bag WorkItem) (f : Flow φ τ),
    Sturdy sieve f → Confined size T f → ∃ done f',
      f.executeItems? sieve count bag = some (done, f') ∧ Sturdy sieve f' ∧ Confined size T f' ∧
        f.Advances f' := by
  induction count with
  | zero => exact fun bag f h hc => ⟨[], f, rfl, h, hc, .refl f⟩
  | succ count ih =>
    intro bag f h hc
    unfold executeItems?
    split
    · exact ⟨[], f, rfl, h, hc, .refl f⟩
    · rename_i item rest _
      have hadv : f.Advances (f.execute sieve item).2 :=
        advances_execute h.wellFormed h.screened fun n tokens hitem hd =>
          h.contains (hitem ▸ hd)
      obtain ⟨done, f', hrest, h', hc', hadv'⟩ :=
        ih rest (f.execute sieve item).2 (h.execute item) (hc.execute h item)
      refine ⟨(f.execute sieve item).1 :: done, f', ?_, h', hc', hadv.trans hadv'⟩
      rw [execute?_eq h.wellFormed h.contains]
      simp only [Option.bind_eq_bind, Option.bind_some, hrest]
      rfl

/-- **A turn** is not refused, and leaves work only where a fact is new. -/
theorem Sturdy.turn (h : Sturdy sieve f) (hc : Confined size T f) (pass : Option (List NodeId)) :
    ∃ f', turn? sieve pass f = some f' ∧ Sturdy sieve f' ∧ Confined size T f' ∧
      f.graph.facts ⊆ f'.graph.facts ∧
      (f'.graph.facts ⊆ f.graph.facts → f'.agenda.hasWork = false) := by
  unfold turn?
  split
  · rename_i hstart
    refine ⟨f, rfl, h, hc, fun _ hx => hx, fun _ => ?_⟩
    rw [Agenda.hasWork, Bag.hasWork_eq_false]
    exact Agenda.startRound_eq_none.mp hstart
  · rename_i bag agenda hstart
    have hempty : agenda.next.present = [] := by
      obtain ⟨-, rfl⟩ := Agenda.startRound_eq_some hstart
      rfl
    obtain ⟨done, f₁, hdone, h₁, hc₁, hadv₁⟩ := Sturdy.executeItems bag.size bag
      { f with agenda } (h.beginRound hstart)
      (hc.of_agenda fun n t => (Agenda.waits_startRound hstart).mp)
    -- what a flow with an empty queue has queued came with a new fact
    have hidle : ∀ f', Advances { f with agenda } f' → f'.graph.facts ⊆ f.graph.facts →
        f'.agenda.hasWork = false := fun f' hadv hsub => by
      have hnext := hadv.idle hsub
      rw [hempty] at hnext
      exact Bag.hasWork_eq_false.mpr (List.eq_nil_of_subset_nil hnext)
    rw [hdone]
    cases pass with
    | none => exact ⟨f₁, rfl, h₁, hc₁, hadv₁.facts, hidle f₁ hadv₁⟩
    | some roots =>
      have hadv := hadv₁.trans (advances_condense h₁.wellFormed roots)
      refine ⟨(f₁.condense roots).2, ?_, h₁.condense roots, hc₁.condense h₁ roots, hadv.facts,
        hidle _ hadv⟩
      simp only [Option.bind_eq_bind, Option.bind_some, condense?_eq h₁.wellFormed]
      rfl

/-- Without work a turn does nothing. -/
theorem turn?_of_idle (h : f.agenda.hasWork = false) (pass : Option (List NodeId)) :
    turn? sieve pass f = some f := by
  have hstart : f.agenda.startRound = none :=
    Agenda.startRound_eq_none.mpr (Bag.hasWork_eq_false.mp h)
  unfold turn?
  rw [hstart]

/-! ## 5. The loop ends -/

/-- After some turns there is no work, or each of them has added a fact. -/
theorem Sturdy.turns (h : Sturdy sieve f) (hc : Confined size T f) (hT : T.Finite)
    (passes : Nat → Flow φ τ → Option (List NodeId)) (count : Nat) :
    ∃ f', turns? sieve passes count f = some f' ∧ Sturdy sieve f' ∧ Confined size T f' ∧
      (f'.agenda.hasWork = false ∨
        ({ x | x.Within size T } \ f'.graph.facts).ncard + count ≤
          ({ x | x.Within size T } \ f.graph.facts).ncard) := by
  induction count with
  | zero => exact ⟨f, rfl, h, hc, .inr (Nat.le_refl _)⟩
  | succ count ih =>
    obtain ⟨f₁, hturns, h₁, hc₁, hdone⟩ := ih
    unfold turns?
    rw [hturns, Option.bind_some]
    rcases hdone with hidle | hcount
    · exact ⟨f₁, turn?_of_idle hidle _, h₁, hc₁, .inl hidle⟩
    · obtain ⟨f₂, hturn, h₂, hc₂, hgrows, hwork⟩ := h₁.turn hc₁ (passes count f₁)
      refine ⟨f₂, hturn, h₂, hc₂, ?_⟩
      by_cases hnew : f₂.graph.facts ⊆ f₁.graph.facts
      · exact .inl (hwork hnew)
      · have hless := Graph.ncard_missing_lt (Fact.finite_within size hT) hgrows hnew
          (hc₂.facts_subset h₂)
        exact .inr (by omega)

/-- **Work comes to an end**: from every flow that orderly operations lead to there is a number of
turns after which nothing is queued, whenever and from wherever cycles are condensed in between. -/
theorem Reachable.turns_end {order : BagOrder} (h : Reachable (Orderly sieve) order f) :
    ∃ count, ∀ passes : Nat → Flow φ τ → Option (List NodeId),
      ∃ f', turns? sieve passes count f = some f' ∧ f'.agenda.hasWork = false := by
  have hf := h.sturdy
  obtain ⟨T, hT, hc⟩ := confined_self hf
  refine ⟨({ x | x.Within f.graph.size T } \ f.graph.facts).ncard + 1, fun passes => ?_⟩
  obtain ⟨f', hturns, -, -, hidle | hcount⟩ := hf.turns hc hT passes _
  · exact ⟨f', hturns, hidle⟩
  · exact absurd hcount (by omega)

/-- A circle of two nodes, and a third one behind it that keeps tokens below 7, with 5 and 9 on
their way around the circle and a task in the queue. -/
def circleFlow : Flow (FilterRule Symbol) Symbol :=
  let f : Flow (FilterRule Symbol) Symbol :=
    (((Flow.addNode (.empty .fifo) none).2.addNode none).2.addNode none).2
  let f := { f with graph := f.graph.modify ⟨2⟩ fun v => { v with filter := some (.below 7) } }
  let f := ((f.link FilterRule.apply ⟨0⟩ ⟨1⟩).2.link FilterRule.apply ⟨1⟩ ⟨0⟩).2
  let f := ((f.link FilterRule.apply ⟨1⟩ ⟨2⟩).2.deliver FilterRule.apply ⟨0⟩ (.ofList [5, 9])).2
  { f with agenda := (f.agenda.schedule (.task ⟨0⟩)).2 }

theorem reachable_circleFlow : Reachable (Orderly FilterRule.apply) .fifo circleFlow := by
  have hretains : Retains FilterRule.apply (.below 7 : FilterRule Symbol) :=
    ⟨fun t => t < 7, fun _ => rfl⟩
  have h₀ : Reachable (Orderly FilterRule.apply) .fifo
      (.empty .fifo : Flow (FilterRule Symbol) Symbol) := .empty
  have h₁ := h₀.step (.addNode none) ⟨rfl, trivial⟩ rfl
  have h₂ := h₁.step (.addNode none) ⟨rfl, trivial⟩ rfl
  have h₃ := h₂.step (.addNode none) ⟨rfl, trivial⟩ rfl
  have h₄ := h₃.step (.setFilter ⟨2⟩ (.below 7)) ⟨rfl, hretains⟩ rfl
  have h₅ := h₄.step (.link ⟨0⟩ ⟨1⟩) ⟨rfl, by decide⟩ rfl
  have h₆ := h₅.step (.link ⟨1⟩ ⟨0⟩) ⟨rfl, by decide⟩ rfl
  have h₇ := h₆.step (.link ⟨1⟩ ⟨2⟩) ⟨rfl, by decide⟩ rfl
  have h₈ := h₇.step (.deliver ⟨0⟩ (.ofList [5, 9])) ⟨rfl, trivial⟩ rfl
  exact h₈.step (.schedule ⟨0⟩) ⟨rfl, trivial⟩ rfl

/-- At first there is work to do. -/
theorem turns_end_circle : circleFlow.agenda.hasWork = true ∧
    ∃ count f', turns? FilterRule.apply (fun i f => if i % 2 = 0 then some f.graph.ids else none)
      count circleFlow = some f' ∧ f'.agenda.hasWork = false := by
  obtain ⟨count, hend⟩ := reachable_circleFlow.turns_end
  exact ⟨by decide, count, hend _⟩

end Flow

end ValueFlow
