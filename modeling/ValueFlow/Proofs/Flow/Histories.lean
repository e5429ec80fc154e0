import ValueFlow.Flow.Bounds
import ValueFlow.Proofs.Flow.Invariant

/-!
# Histories of a flow

Whatever happens to a flow is a sequence of operations (`Flow.Operation`), in any order. An
operation that would need a node that does not exist is refused (`Flow.perform?`). `Flow.Reachable`
holds of the flows that such sequences lead to; it can be restricted to operations that are allowed
where they happen.

Without any restriction the components fit together (`Reachable.grouped`), and nodes keep their
tokens: although a node gives its tokens away when it is fused, it goes on reading them at its
representative. Filters may let through what they like, and something else at every operation.

Where links lead to nodes and filters decide token by token (`Orderly`), the graph is well-formed
and what waits for nodes waits for nodes that exist (`Sturdy`).
-/

namespace ValueFlow.Flow

open ValueFlow.Graph

variable {φ τ : Type} [Ordered τ]

/-! ## 1. Operations -/

/-- **What can be asked of a flow.** -/
inductive Operation (φ τ : Type) [Ordered τ] where
  | addNode (label : Option Label)
  | link (source target : NodeId)
  | deliver (node : NodeId) (tokens : TokenSet τ)
  | offer (node : NodeId) (tokens : TokenSet τ)
  | setFilter (node : NodeId) (filter : φ)
  | subscribe (node : NodeId) (listener : ListenerId)
  | condense (roots : List NodeId)
  /-- queue a task for the next round -/
  | schedule (task : TaskId)
  /-- let tokens wait again for a listener that failed -/
  | giveBack (node : NodeId) (listener : ListenerId) (tokens : TokenSet τ)
  /-- hand out the queue; its items may be executed, put back or dropped -/
  | beginRound
  | execute (item : WorkItem)
  | putBack (bag : Bag WorkItem)
  /-- back to a flow without nodes and without work -/
  | clear

variable (sieve : φ → TokenSet τ → TokenSet τ)

/-- **Do what is asked**, or nothing (`none`) if it needs a node that does not exist. A filter that
a fused node refuses changes nothing. -/
def perform? (f : Flow φ τ) : Operation φ τ → Option (Flow φ τ)
  | .addNode label => some (f.addNode label).2
  | .link source target => (f.link? sieve source target).map Prod.snd
  | .deliver n tokens => (f.deliver? sieve n tokens).map Prod.snd
  | .offer n tokens => (f.offer? n tokens).map Prod.snd
  | .setFilter n filter => (f.setFilter? n filter).map fun answer => answer.toOption.getD f
  | .subscribe n l => f.subscribe? sieve n l
  | .condense roots => (f.condense? roots).map Prod.snd
  | .schedule id => some { f with agenda := (f.agenda.schedule (.task id)).2 }
  | .giveBack n l tokens => some { f with agenda := (f.agenda.post (.notify n l) tokens).2 }
  | .beginRound => f.agenda.startRound.map fun (_, agenda) => { f with agenda }
  | .execute item => (f.execute? sieve item).map Prod.snd
  | .putBack bag => some { f with agenda := f.agenda.putBack bag }
  | .clear => some ⟨.empty, f.agenda.clear⟩

/-- **The flows that operations lead to** from an empty one, each of them allowed where it happens.
What the filters let through may be another thing at every step. -/
inductive Reachable (allowed : (φ → TokenSet τ → TokenSet τ) → Flow φ τ → Operation φ τ → Prop)
    (order : BagOrder) : Flow φ τ → Prop where
  | empty : Reachable allowed order (.empty order)
  | step {f f' : Flow φ τ} {sieve : φ → TokenSet τ → TokenSet τ} (op : Operation φ τ) :
      Reachable allowed order f → allowed sieve f op → f.perform? sieve op = some f' →
      Reachable allowed order f'

/-! ## 2. What is done where nothing is refused -/

/-- **An operation and what it does**, on handles that have a node. -/
inductive Does (f : Flow φ τ) : Operation φ τ → Flow φ τ → Prop where
  | addNode (label : Option Label) : Does f (.addNode label) (f.addNode label).2
  | link {source : NodeId} (target : NodeId) (hsource : f.graph.contains source) :
      Does f (.link source target) (f.link sieve source target).2
  | deliver {n : NodeId} (tokens : TokenSet τ) (hn : f.graph.contains n) :
      Does f (.deliver n tokens) (f.deliver sieve n tokens).2
  | offer {n : NodeId} (tokens : TokenSet τ) (hn : f.graph.contains n) :
      Does f (.offer n tokens) (f.offer n tokens).2
  | setFilter {n : NodeId} {filter : φ} {f' : Flow φ τ} (hn : f.graph.contains n)
      (hok : f.setFilter n filter = .ok f') : Does f (.setFilter n filter) f'
  | refuse {n : NodeId} {filter : φ} {e : UsageError}
      (herror : f.setFilter n filter = .error e) : Does f (.setFilter n filter) f
  | subscribe {n : NodeId} (l : ListenerId) (hn : f.graph.contains n) :
      Does f (.subscribe n l) (f.subscribe sieve n l)
  | condense (roots : List NodeId) : Does f (.condense roots) (f.condense roots).2
  | schedule (id : TaskId) :
      Does f (.schedule id) { f with agenda := (f.agenda.schedule (.task id)).2 }
  | giveBack (n : NodeId) (l : ListenerId) (tokens : TokenSet τ) :
      Does f (.giveBack n l tokens) { f with agenda := (f.agenda.post (.notify n l) tokens).2 }
  | beginRound {bag : Bag WorkItem} {agenda : Agenda τ}
      (hbag : f.agenda.startRound = some (bag, agenda)) : Does f .beginRound { f with agenda }
  | execute (item : WorkItem) : Does f (.execute item) (f.execute sieve item).2
  | putBack (bag : Bag WorkItem) :
      Does f (.putBack bag) { f with agenda := f.agenda.putBack bag }
  | clear : Does f .clear ⟨.empty, f.agenda.clear⟩

section Done

variable {sieve} {f f' : Flow φ τ} {op : Operation φ τ}

theorem does_setFilter {n : NodeId} {filter : φ} (hn : f.graph.contains n) :
    Does sieve f (.setFilter n filter) ((f.setFilter n filter).toOption.getD f) := by
  cases hs : f.setFilter n filter with
  | error e => exact .refuse hs
  | ok f' => exact .setFilter hn hs

theorem does_of_deliver? {n : NodeId} {tokens : TokenSet τ} {done : Bool × Flow φ τ}
    (h : f.deliver? sieve n tokens = some done) : Does sieve f (.deliver n tokens) done.2 := by
  unfold deliver? at h
  dsimp only at h
  split at h
  · cases h
  · rename_i hn
    cases h
    exact .deliver tokens (by simp_all)

theorem execute_of_execute? {item : WorkItem} {done : Executed τ × Flow φ τ}
    (h : f.execute? sieve item = some done) : done = f.execute sieve item := by
  unfold execute? at h
  split at h
  · obtain ⟨-, -, rfl⟩ := Option.map_eq_some_iff.mp h
    rfl
  · cases h
    rfl

/-- **What is not refused is done.** -/
theorem does_of_perform? (h : f.perform? sieve op = some f') : Does sieve f op f' := by
  cases op with
  | addNode label =>
    cases h
    exact .addNode label
  | link source target =>
    obtain ⟨done, hdone, rfl⟩ := Option.map_eq_some_iff.mp h
    unfold link? at hdone
    dsimp only at hdone
    split at hdone
    · cases hdone
    · rename_i hn
      cases hdone
      exact .link target (by simp_all)
  | deliver n tokens =>
    obtain ⟨done, hdone, rfl⟩ := Option.map_eq_some_iff.mp h
    exact does_of_deliver? hdone
  | offer n tokens =>
    obtain ⟨done, hdone, rfl⟩ := Option.map_eq_some_iff.mp h
    unfold offer? at hdone
    split at hdone
    · rename_i hn
      cases hdone
      exact .offer tokens hn
    · cases hdone
  | setFilter n filter =>
    obtain ⟨answer, hanswer, rfl⟩ := Option.map_eq_some_iff.mp h
    unfold setFilter? at hanswer
    split at hanswer
    · rename_i hn
      cases hanswer
      exact does_setFilter hn
    · cases hanswer
  | subscribe n l =>
    have hdone : f.subscribe? sieve n l = some f' := h
    unfold subscribe? at hdone
    split at hdone
    · rename_i hn
      cases hdone
      exact .subscribe l hn
    · cases hdone
  | condense roots =>
    obtain ⟨done, hdone, rfl⟩ := Option.map_eq_some_iff.mp h
    unfold condense? at hdone
    dsimp only at hdone
    split at hdone
    · cases hdone
    · cases hdone
      exact .condense roots
  | schedule id =>
    cases h
    exact .schedule id
  | giveBack n l tokens =>
    cases h
    exact .giveBack n l tokens
  | beginRound =>
    obtain ⟨⟨bag, agenda⟩, hbag, rfl⟩ := Option.map_eq_some_iff.mp h
    exact .beginRound hbag
  | execute item =>
    obtain ⟨done, hdone, rfl⟩ := Option.map_eq_some_iff.mp h
    rw [execute_of_execute? hdone]
    exact .execute item
  | putBack bag =>
    cases h
    exact .putBack bag
  | clear =>
    cases h
    exact .clear

end Done

/-! ## 3. Components fit together -/

section Grouped

variable {sieve} {f f' : Flow φ τ} {op : Operation φ τ}

theorem grouped_deliver (hg : f.graph.Grouped) (n : NodeId) (tokens : TokenSet τ) :
    (f.deliver sieve n tokens).2.graph.Grouped := by
  rw [graph_deliver]
  split
  · exact hg
  · exact hg.transfer (sameShape_modify (fun _ => rfl) (fun _ => rfl) fun _ => rfl)

theorem grouped_link (hg : f.graph.Grouped) (source target : NodeId) :
    (f.link sieve source target).2.graph.Grouped := by
  rw [graph_link]
  split
  · exact hg
  · exact hg.transfer (sameShape_modify (fun _ => rfl) (fun _ => rfl) fun _ => rfl)

theorem grouped_execute (hg : f.graph.Grouped) (item : WorkItem) :
    (f.execute sieve item).2.graph.Grouped := by
  refine execute_cases (P := fun f => f.graph.Grouped) item (fun _ => hg) fun n tokens _ _ => ?_
  exact grouped_deliver (f := ⟨f.graph, (f.agenda.collect item).2⟩) hg n tokens

/-- **Every operation keeps components that fit together.** -/
theorem Does.grouped (h : Does sieve f op f') (hg : f.graph.Grouped) : f'.graph.Grouped := by
  cases h with
  | addNode label => exact hg.addNode label
  | link target => exact grouped_link hg _ target
  | deliver tokens => exact grouped_deliver hg _ tokens
  | setFilter _ hok =>
    obtain ⟨-, rfl⟩ := setFilter_eq_ok hok
    exact hg.transfer (sameShape_modify (fun _ => rfl) (fun _ => rfl) fun _ => rfl)
  | subscribe =>
    exact hg.transfer (sameShape_modify (fun _ => rfl) (fun _ => rfl) fun _ => rfl)
  | condense roots => exact grouped_condense hg roots
  | execute item => exact grouped_execute hg item
  | clear => exact wellFormed_empty.grouped
  | offer | refuse | schedule | giveBack | beginRound | putBack => exact hg

theorem Reachable.grouped {order : BagOrder}
    {allowed : (φ → TokenSet τ → TokenSet τ) → Flow φ τ → Operation φ τ → Prop}
    (h : Reachable allowed order f) : f.graph.Grouped := by
  induction h with
  | empty => exact wellFormed_empty.grouped
  | step op _ _ hdone ih => exact (does_of_perform? hdone).grouped ih

end Grouped

/-! ## 4. Nodes keep their tokens -/

section Tokens

variable {sieve} {f f' : Flow φ τ} {op : Operation φ τ} {v : NodeId} {t : τ}

theorem subset_tokens_execute {item : WorkItem} (ht : t ∈ f.graph.tokens v) :
    t ∈ (f.execute sieve item).2.graph.tokens v :=
  execute_cases (P := fun f => t ∈ f.graph.tokens v) item (fun _ => ht)
    fun _ _ _ _ => subset_tokens_deliver ht

theorem subset_tokens_condense (hg : f.graph.Grouped) (roots : List NodeId)
    (ht : t ∈ f.graph.tokens v) : t ∈ (f.condense roots).2.graph.tokens v := by
  refine condense_induction (P := fun f => t ∈ f.graph.tokens v) hg roots (fun g hu => ?_)
    fun f' c hc ht => hc.subset_tokens_fuse ht
  exact (tokens_of_unmarked hu).symm ▸ ht

/-- **Nodes keep their tokens** whatever happens to a flow with components that fit together, unless
all is cleared. -/
theorem Does.subset_tokens (h : Does sieve f op f') (hg : f.graph.Grouped) (hop : op ≠ .clear)
    (ht : t ∈ f.graph.tokens v) : t ∈ f'.graph.tokens v := by
  cases h with
  | addNode label => exact (tokens_addNode (g := f.graph)).symm ▸ ht
  | link =>
    rw [tokens_link]
    exact ht
  | deliver => exact subset_tokens_deliver ht
  | setFilter _ hok =>
    obtain ⟨-, rfl⟩ := setFilter_eq_ok hok
    simpa [Graph.tokens] using ht
  | subscribe =>
    rw [tokens_subscribe]
    exact ht
  | condense roots => exact subset_tokens_condense hg roots ht
  | execute item => exact subset_tokens_execute ht
  | clear => exact absurd rfl hop
  | offer | refuse | schedule | giveBack | beginRound | putBack => exact ht

theorem Reachable.foldlM {order : BagOrder} {ops : List (Operation φ τ)}
    (h : Reachable (fun _ _ _ => True) order f) (hops : ops.foldlM (perform? sieve) f = some f') :
    Reachable (fun _ _ _ => True) order f' := by
  induction ops generalizing f with
  | nil =>
    cases hops
    exact h
  | cons op ops ih =>
    obtain ⟨f₁, hf₁, hrest⟩ := Option.bind_eq_some_iff.mp hops
    exact ih (.step op h trivial hf₁) hrest

/-- **Tokens disappear only when all is cleared**: in every flow that operations lead to, with
arbitrary filters, one more operation leaves every node the tokens it had, read at its
representative. -/
theorem Reachable.tokens_mono {order : BagOrder}
    (h : Reachable (fun _ _ _ => True) order f) (hop : f.perform? sieve op = some f') :
    (op ≠ .clear → ∀ v t, t ∈ f.graph.tokens v → t ∈ f'.graph.tokens v) ∧
      (op = .clear → ∀ v t, t ∉ f'.graph.tokens v) := by
  refine ⟨fun hne v t ht => (does_of_perform? hop).subset_tokens h.grouped hne ht,
    fun hclear v t ht => ?_⟩
  subst hclear
  cases hop
  exact SortedSet.not_mem_empty t ht

/-- Whatever is shown to it, the filter lets 7 through. -/
def onlySeven (_ : Unit) (_ : TokenSet Nat) : TokenSet Nat := .singleton 7

/-- Two nodes linked in a circle, and a third one in front of them whose filter turns every token
into 7. The token 7 comes to the second node and waits for the first. -/
def sevenSteps : List (Operation Unit Nat) :=
  [.addNode none, .addNode none, .addNode none, .setFilter ⟨2⟩ (), .link ⟨0⟩ ⟨1⟩, .link ⟨1⟩ ⟨0⟩,
    .link ⟨2⟩ ⟨1⟩, .deliver ⟨2⟩ (.singleton 5), .beginRound, .execute (.send ⟨1⟩)]

/-- The flow after `sevenSteps`. -/
def sevenFlow : Flow Unit Nat :=
  (sevenSteps.foldlM (perform? onlySeven) (.empty .lifo)).getD (.empty .lifo)

theorem reachable_sevenFlow : Reachable (fun _ _ _ => True) .lifo sevenFlow := by
  have hsteps : sevenSteps.foldlM (perform? onlySeven) (.empty .lifo) = some sevenFlow := rfl
  exact Reachable.empty.foldlM hsteps

/-- Fusing the circle takes the token out of the second node, which has it all the same. -/
theorem tokens_mono_seven : ∃ f' : Flow Unit Nat,
    sevenFlow.perform? onlySeven (.condense [⟨0⟩]) = some f' ∧ 7 ∈ sevenFlow.graph.stored ⟨1⟩ ∧
      f'.graph.stored ⟨1⟩ = ∅ ∧ 7 ∈ f'.graph.tokens ⟨1⟩ := by
  have hsome : (sevenFlow.perform? onlySeven (.condense [⟨0⟩])).isSome := by decide +kernel
  obtain ⟨f', hf'⟩ := Option.isSome_iff_exists.mp hsome
  have hkept := (reachable_sevenFlow.tokens_mono hf').1 nofun ⟨1⟩ 7 (by decide +kernel)
  refine ⟨f', hf', by decide +kernel, ?_, hkept⟩
  cases does_of_perform? hf'
  decide +kernel

end Tokens

/-! ## 5. Orderly histories -/

/-- Filters let through what `sieve` says, the operation makes no link to a missing node, and puts
up a filter only if it decides token by token. -/
def Orderly (sieve s : φ → TokenSet τ → TokenSet τ) (f : Flow φ τ) (op : Operation φ τ) : Prop :=
  s = sieve ∧ match op with
    | .link _ target => f.graph.contains target
    | .setFilter _ filter => Retains sieve filter
    | _ => True

/-- **What orderly operations keep**: the graph is well-formed, its filters decide token by token,
and what waits is not nothing and waits for nodes that exist. -/
structure Sturdy (sieve : φ → TokenSet τ → TokenSet τ) (f : Flow φ τ) : Prop where
  wellFormed : f.graph.WellFormed
  screened : f.graph.Screened sieve
  kept : f.agenda.Kept fun _ => True
  target : ∀ {n t}, f.agenda.Waits (.send n) t → f.graph.contains n

section Sturdy

variable {sieve} {f f' : Flow φ τ} {op : Operation φ τ} {n : NodeId} {tokens : TokenSet τ}

theorem sturdy_empty (order : BagOrder) : Sturdy sieve (.empty order : Flow φ τ) where
  wellFormed := wellFormed_empty
  screened n filter hf := by
    have hnone : (Graph.empty : Graph φ τ).filter? n = none := rfl
    exact nomatch hnone.symm.trans hf
  kept := Agenda.kept_empty order _
  target hw := absurd hw (Agenda.waits_empty order _ _)

theorem Sturdy.of_agenda {a : Agenda τ} (h : Sturdy sieve f) (hkept : a.Kept fun _ => True)
    (hwaits : ∀ n t, a.Waits (.send n) t → f.agenda.Waits (.send n) t ∨ f.graph.contains n) :
    Sturdy sieve { f with agenda := a } :=
  ⟨h.wellFormed, h.screened, hkept, fun hw => (hwaits _ _ hw).elim h.target id⟩

/-- What waits for a node waits for one that exists. -/
theorem Sturdy.contains (h : Sturdy sieve f) (hd : f.agenda.delta? (.send n) = some tokens) :
    f.graph.contains n := by
  obtain ⟨t, ht⟩ := h.kept.exists_waits hd
  exact h.target ht

theorem Sturdy.addNode (h : Sturdy sieve f) (label : Option Label) :
    Sturdy sieve (f.addNode label).2 where
  wellFormed := h.wellFormed.addNode label
  screened n filter hf := h.screened n filter (filter?_addNode.symm.trans hf)
  kept := h.kept
  target hw := contains_addNode.mpr (.inl (h.target hw))

theorem Sturdy.link (h : Sturdy sieve f) {source target : NodeId}
    (hsource : f.graph.contains source) (htarget : f.graph.contains target) :
    Sturdy sieve (f.link sieve source target).2 where
  wellFormed := wellFormed_link h.wellFormed hsource htarget
  screened n filter hf := h.screened n filter (filter?_link.symm.trans hf)
  kept := growing_link (Agenda.lasting_kept _).toGrowing h.kept
  target hw := by
    rw [contains_link]
    rcases (waits_link h.wellFormed h.screened).mp hw with hw | ⟨-, e, -⟩
    · exact h.target hw
    · cases e
      exact h.wellFormed.contains_rep htarget

theorem Sturdy.deliver (h : Sturdy sieve f) (hn : f.graph.contains n) (tokens : TokenSet τ) :
    Sturdy sieve (f.deliver sieve n tokens).2 where
  wellFormed := wellFormed_deliver h.wellFormed
  screened m filter hf := h.screened m filter (filter?_deliver.symm.trans hf)
  kept := growing_deliver (Agenda.lasting_kept _).toGrowing h.kept
  target hw := by
    rw [contains_deliver]
    rcases (waits_deliver h.wellFormed h.screened hn).mp hw with hw | ⟨-, m, -, -, hpass⟩
    · exact h.target hw
    · rcases hpass with ⟨s, hs, e, -⟩ | ⟨l, -, e⟩
      · cases e
        rw [successors_deliver] at hs
        rw [representative_deliver]
        exact h.wellFormed.contains_rep (h.wellFormed.contains_successor hs)
      · cases e

theorem Sturdy.offer (h : Sturdy sieve f) (hn : f.graph.contains n) (tokens : TokenSet τ) :
    Sturdy sieve (f.offer n tokens).2 := by
  refine h.of_agenda (growing_offer (Agenda.lasting_kept _).toGrowing h.kept) fun m t hw => ?_
  refine (waits_offer.mp hw).imp id fun hnew => ?_
  cases hnew.1
  exact h.wellFormed.contains_rep hn

theorem Sturdy.setFilter (h : Sturdy sieve f) {filter : φ} (hn : f.graph.contains n)
    (hretains : Retains sieve filter) (hok : f.setFilter n filter = .ok f') :
    Sturdy sieve f' := by
  obtain ⟨hfused, rfl⟩ := setFilter_eq_ok hok
  refine ⟨h.wellFormed.setFilter hfused, fun m filter' hf => ?_, h.kept, fun hw => ?_⟩
  · rw [filter?_modify_filter hn] at hf
    split at hf
    · cases hf
      exact hretains
    · exact h.screened m filter' hf
  · exact contains_modify.trans (h.target hw)

theorem Sturdy.subscribe (h : Sturdy sieve f) (n : NodeId) (l : ListenerId) :
    Sturdy sieve (f.subscribe sieve n l) where
  wellFormed := h.wellFormed.modify n (fun _ => rfl) (fun _ => rfl) (fun _ => rfl) (fun _ => rfl)
    (fun _ => rfl) fun _ => rfl
  screened m filter hf := h.screened m filter (filter?_subscribe.symm.trans hf)
  kept := h.kept.post _ _
  target hw := contains_subscribe.trans (h.target (waits_send_subscribe.mp hw))

theorem Sturdy.fuse (h : Sturdy sieve f) {cycle : List NodeId} (hc : Fusable f.graph cycle) :
    Sturdy sieve (f.fuse cycle) where
  wellFormed := wellFormed_fuse hc h.wellFormed
  screened n filter hf := h.screened n filter (filter?_fuse.symm.trans hf)
  kept := lasting_fuse (Agenda.lasting_kept _) h.kept
  target hw := by
    rw [contains_fuse]
    rcases length_lt_or_two_le cycle with hle | htwo
    · rw [fuse_of_length_le hle] at hw
      exact h.target hw
    · rcases (waits_fuse hc htwo).mp hw with ⟨hw, -⟩ | ⟨e, -⟩ | ⟨-, m, -, -, -, hpass⟩
      · exact h.target hw
      · cases e
        exact hc.contains _ (least_mem_of_two_le htwo)
      · rcases hpass with ⟨s, hs, e, -⟩ | ⟨l, -, e⟩
        · cases e
          have hwf := wellFormed_fuse hc h.wellFormed
          have hrep := hwf.contains_rep (hwf.contains_successor hs)
          rw [contains_fuse] at hrep
          exact hrep
        · cases e

theorem Sturdy.of_unmarked (h : Sturdy sieve f) {g : Graph φ τ}
    (hu : g.unmarked = f.graph.unmarked) : Sturdy sieve { f with graph := g } where
  wellFormed := h.wellFormed.of_unmarked hu
  screened n filter hf := h.screened n filter ((filter?_of_unmarked hu).symm.trans hf)
  kept := h.kept
  target hw := (contains_of_unmarked hu).trans (h.target hw)

theorem Sturdy.condense (h : Sturdy sieve f) (roots : List NodeId) :
    Sturdy sieve (f.condense roots).2 :=
  condense_induction h.wellFormed.grouped roots (fun _ hu => h.of_unmarked hu)
    fun _ _ hc hf' => hf'.fuse hc

theorem Sturdy.beginRound (h : Sturdy sieve f) {bag : Bag WorkItem} {a : Agenda τ}
    (hs : f.agenda.startRound = some (bag, a)) : Sturdy sieve { f with agenda := a } := by
  refine h.of_agenda ((h.kept.startRound hs).2.mono fun _ _ => trivial) fun n t hw => .inl ?_
  exact (Agenda.waits_startRound hs).mp hw

theorem Sturdy.collect (h : Sturdy sieve f) (item : WorkItem) :
    Sturdy sieve { f with agenda := (f.agenda.collect item).2 } :=
  h.of_agenda (h.kept.collect fun _ _ => id) fun _ _ hw => .inl (Agenda.waits_collect.mp hw).2

theorem Sturdy.execute (h : Sturdy sieve f) (item : WorkItem) :
    Sturdy sieve (f.execute sieve item).2 := by
  refine execute_cases item (fun _ => h.collect item) fun n tokens hitem hd => ?_
  subst hitem
  exact (h.collect (.send n)).deliver (h.contains hd) tokens

/-- **Orderly operations keep a flow sturdy.** -/
theorem Sturdy.does {s : φ → TokenSet τ → TokenSet τ} (h : Sturdy sieve f)
    (hop : Orderly sieve s f op) (hdone : Does s f op f') : Sturdy sieve f' := by
  obtain ⟨rfl, hop⟩ := hop
  cases hdone with
  | addNode label => exact h.addNode label
  | link target hsource => exact h.link hsource hop
  | deliver tokens hn => exact h.deliver hn tokens
  | offer tokens hn => exact h.offer hn tokens
  | setFilter hn hok => exact h.setFilter hn hop hok
  | refuse => exact h
  | subscribe l => exact h.subscribe _ l
  | condense roots => exact h.condense roots
  | beginRound hbag => exact h.beginRound hbag
  | execute item => exact h.execute item
  | schedule id => exact h.of_agenda (h.kept.schedule _) fun _ _ hw => .inl hw
  | giveBack n l tokens =>
    refine h.of_agenda (h.kept.post _ _) fun m t hw => .inl ?_
    exact (Agenda.waits_post.mp hw).resolve_right fun hnew => nomatch hnew.1
  | putBack bag =>
    have hkept : (f.agenda.putBack bag).Kept fun _ => True :=
      ⟨h.kept.sound.foldl_add _, fun _ => .inr trivial, h.kept.nonempty⟩
    exact h.of_agenda hkept fun _ _ hw => .inl hw
  | clear => exact sturdy_empty _

theorem Reachable.sturdy {order : BagOrder} (h : Reachable (Orderly sieve) order f) :
    Sturdy sieve f := by
  induction h with
  | empty => exact sturdy_empty order
  | step op _ hop hdone ih => exact ih.does hop (does_of_perform? hdone)

end Sturdy

/-! ## 6. What building leaves alone -/

/-- The operation builds: the agenda only gets tokens, or gives back what waits for nodes. -/
def Operation.Builds : Operation φ τ → Prop
  | .schedule _ | .beginRound | .execute _ | .putBack _ | .clear => False
  | _ => True

section Builds

variable {sieve} {f f' : Flow φ τ} {op : Operation φ τ} {P : Agenda τ → Prop}

theorem Does.growing (hP : Agenda.Growing P) (h : Does sieve f op f') (hop : op.Builds)
    (hcondense : ∀ roots, op ≠ .condense roots) (hf : P f.agenda) : P f'.agenda := by
  cases h with
  | link => exact growing_link hP hf
  | deliver => exact growing_deliver hP hf
  | offer => exact growing_offer hP hf
  | setFilter _ hok =>
    obtain ⟨-, rfl⟩ := setFilter_eq_ok hok
    exact hf
  | subscribe => exact hP.post _ rfl hf
  | condense roots => exact absurd rfl (hcondense roots)
  | giveBack n l tokens => exact hP.post tokens rfl hf
  | addNode | refuse => exact hf
  | schedule | beginRound | execute | putBack | clear => exact hop.elim

theorem Does.lasting (hP : Agenda.Lasting P) (hg : f.graph.Grouped) (h : Does sieve f op f')
    (hop : op.Builds) (hf : P f.agenda) : P f'.agenda := by
  by_cases hcondense : ∃ roots, op = .condense roots
  · obtain ⟨roots, rfl⟩ := hcondense
    cases h
    exact lasting_condense hg roots hP hf
  · exact h.growing hP.toGrowing hop (fun roots e => hcondense ⟨roots, e⟩) hf

end Builds

end ValueFlow.Flow
