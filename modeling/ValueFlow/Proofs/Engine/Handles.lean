import ValueFlow.Proofs.Engine.Ownership
import ValueFlow.Proofs.Flow.Handles

/-!
# Handles that an engine stores

Collaborators may hand in whatever handles they like. Requests check them, and refuse those of no
node before anything is changed. So all handles that an engine stores are those of nodes, while
collaborators and rounds nest: in the graph, in the table of variants, on the agenda and in the bags
of the rounds that are under way. A reset takes all nodes away; if a collaborator asked for it in
the middle of a round, the rest of its bag would be left over. From outside it does no harm.

* `Moment.Housed`, `Step.housed`, `lasting_housed`: all stored handles are those of nodes;
* `Story.handles_housed`: hence nothing that an engine does is out of bounds, and requests with
  other handles change nothing.
-/

namespace ValueFlow

variable {ε τ σ : Type} [Ordered τ]

/-! ## 1. Moments -/

/-- **All stored handles are those of nodes**, also in the bags of the rounds that are under way and
in the items whose listeners are. -/
structure Moment.Housed (m : Moment ε τ σ) : Prop where
  flow : m.world.flow.Housed
  bags : ∀ bag ∈ m.bags, bag.Only (WorkItem.Inside m.world.flow.graph)
  errands : ∀ {n l tokens}, .hearing n l tokens ∈ m.errands →
    (WorkItem.notify n l).Inside m.world.flow.graph

namespace Moment.Housed

variable {w w' : World ε τ σ} {bags : List (Bag WorkItem)} {errands : List (Errand τ)}
  {bag rest : Bag WorkItem} {errand : Errand τ} {item : WorkItem}

/-- The flow goes on, and no node is lost. -/
theorem advance (h : Housed ⟨w, bags, errands⟩) (hflow : w'.flow.Housed)
    (hnodes : ∀ {n}, w.flow.graph.contains n → w'.flow.graph.contains n) :
    Housed ⟨w', bags, errands⟩ where
  flow := hflow
  bags bag hbag := (h.bags bag hbag).mono fun hitem => hitem.mono hnodes
  errands herrand := (h.errands herrand).mono hnodes

theorem does {op : Flow.Operation (Filter σ τ) τ} (h : Housed ⟨w, bags, errands⟩)
    (hdone : Flow.Does w.sieve w.flow op w'.flow) (hbound : w.flow.Bound op) (hop : op ≠ .clear) :
    Housed ⟨w', bags, errands⟩ :=
  h.advance (h.flow.does hdone hbound) (hdone.contains h.flow.wellFormed hop)

theorem inside (h : Housed ⟨w, bag :: bags, errands⟩) (htake : bag.take = (some item, rest)) :
    item.Inside w.flow.graph :=
  (h.bags bag List.mem_cons_self).present (Bag.mem_present_of_take htake)

theorem take (h : Housed ⟨w, bag :: bags, errands⟩) (htake : bag.take = (some item, rest)) :
    Housed ⟨w, rest :: bags, errands⟩ := by
  refine ⟨h.flow, fun bag' hbag' => ?_, h.errands⟩
  rcases List.mem_cons.mp hbag' with rfl | hbag'
  · exact (h.bags bag List.mem_cons_self).take htake
  · exact h.bags bag' (List.mem_cons_of_mem _ hbag')

theorem pop (h : Housed ⟨w, bag :: bags, errands⟩) : Housed ⟨w, bags, errands⟩ :=
  ⟨h.flow, fun bag' hbag' => h.bags bag' (List.mem_cons_of_mem _ hbag'), h.errands⟩

theorem push (h : Housed ⟨w, bags, errands⟩)
    (hbag : bag.Only (WorkItem.Inside w.flow.graph)) : Housed ⟨w, bag :: bags, errands⟩ :=
  ⟨h.flow, List.forall_mem_cons.mpr ⟨hbag, h.bags⟩, h.errands⟩

/-- An errand begins. -/
theorem call (h : Housed ⟨w, bags, errands⟩)
    (herrand : ∀ {n l tokens}, errand = .hearing n l tokens →
      (WorkItem.notify n l).Inside w.flow.graph) : Housed ⟨w, bags, errand :: errands⟩ := by
  refine ⟨h.flow, h.bags, fun hmem => ?_⟩
  rcases List.mem_cons.mp hmem with heq | hmem
  · exact herrand heq.symm
  · exact h.errands hmem

/-- An errand is over. -/
theorem settle (h : Housed ⟨w, bags, errand :: errands⟩) : Housed ⟨w, bags, errands⟩ :=
  ⟨h.flow, h.bags, fun hmem => h.errands (List.mem_cons_of_mem _ hmem)⟩

theorem execute (h : Housed ⟨w, bags, errands⟩) (item : WorkItem) :
    Housed ⟨w.setFlow (w.flow.execute w.sieve item).2, bags, errands⟩ :=
  h.does (.execute item) trivial nofun

theorem ask (h : Housed ⟨w, bags, errands⟩) {q : Request ε τ σ} (hq : q ≠ .reset) :
    Housed ⟨q.perform w, bags, errands⟩ := by
  rcases q.flow_perform w with hflow | ⟨op, hasks, hdoes⟩
  · exact h.advance (hflow ▸ h.flow) fun hn => hflow ▸ hn
  · refine h.does hdoes ?_ (hasks.ne_clear hq)
    cases hasks with
    | link source htarget => exact htarget
    | _ => trivial

theorem create [DecidableEq ε] (h : Housed ⟨w, bags, errands⟩) {entity : ε} {c : Context ε}
    (hfind : w.engine.variants.find? entity c = none) {shape : Shape}
    {created : VariantId × World ε τ σ} (hcreate : w.create entity c shape = created) :
    Housed ⟨created.2, bags, errands⟩ := by
  obtain ⟨labels, _, heq⟩ := World.create_eq shape hfind
  rw [heq] at hcreate
  subst hcreate
  have hnodes : ∀ {n}, w.flow.graph.contains n → (w.flow.graph.addNodes labels).contains n := by
    intro n hn
    rw [Graph.contains_iff, ← Graph.length_labels] at hn ⊢
    rw [Graph.labels_addNodes, List.length_append]
    omega
  refine h.advance ⟨?_, h.flow.agenda.inside hnodes⟩ hnodes
  exact List.foldlRecOn labels _ h.flow.wellFormed fun _ hg label _ => hg.addNode label

end Moment.Housed

/-! ## 2. Stories -/

variable [DecidableEq ε]

/-- **Every step but a reset leaves all stored handles those of nodes.** -/
theorem Step.housed {m m' : Moment ε τ σ} {d : Deed ε τ σ} (h : Step m d m')
    (hd : d.isReset = false) (hm : m.Housed) : m'.Housed := by
  cases h with
  | look | answer => exact hm
  | ask q => exact hm.ask (Deed.ne_reset hd)
  | discover _ hfind _ hcreate => exact (hm.create hfind hcreate).call nofun
  | discovered | heard => exact hm.settle
  | @beginRound w bags errands bag agenda hbag =>
    have hbegun : Moment.Housed ⟨w.begun agenda, bags, errands⟩ :=
      hm.does (.beginRound hbag) trivial nofun
    exact hbegun.push (hm.flow.agenda.startRound hbag).1
  | skip htake => exact hm.take htake
  | send htake | lose htake => exact (hm.take htake).execute _
  | hear htake =>
    refine ((hm.take htake).call fun heq => ?_).execute _
    cases heq
    exact hm.inside htake
  | work htake => exact (hm.take htake).advance hm.flow id
  | giveBack =>
    have hinside := hm.errands List.mem_cons_self
    exact hm.settle.advance ⟨hm.flow.wellFormed, hm.flow.agenda.post hinside _⟩ id
  | finish => exact hm.pop.advance hm.flow id
  | @breakOff w bag bags errands executed failure =>
    have hback : Moment.Housed
        ⟨(World.finishRound ⟨bag, executed, some failure⟩ w).2, bag :: bags, errands⟩ :=
      hm.does (.putBack bag) (hm.bags bag List.mem_cons_self) nofun
    exact hback.pop

/-- **All stored handles go on to be those of nodes**, as long as no collaborator resets the engine
that it works for. -/
theorem lasting_housed (fits : Semantics ε τ σ → Prop) :
    Lasting fits (fun l m => (∀ x ∈ l, x.isReset = false) → m.Housed) where
  step h hstep hfree := by
    obtain ⟨hbefore, hlast⟩ := List.forall_mem_append.mp hfree
    exact hstep.housed (hlast _ List.mem_cons_self) (h hbefore)
  new settings _ _ _ := ⟨.empty _, nofun, nofun⟩
  install h _ hfree := (h hfree).advance (h hfree).flow id
  equip _ _ _ _ _ h hfree := (h hfree).advance (h hfree).flow id
  restart _ _ := ⟨.empty _, nofun, nofun⟩
  outside h hfree := ⟨(h hfree).flow, nofun, nofun⟩

/-! ## 3. Refusals -/

namespace World

variable {w : World ε τ σ} {n : NodeId}

omit [DecidableEq ε] in
theorem checkNode_eq_error (w : World ε τ σ) (hn : ¬ w.flow.graph.contains n) :
    w.checkNode n = .error (.usage (.unknownNode n)) := if_neg hn

omit [DecidableEq ε] in
theorem checkNode_eq_ok (hn : w.flow.graph.contains n) : w.checkNode n = .ok () := if_pos hn

end World

/-- **Nothing is out of bounds, and bad handles are refused.** Whatever an engine goes through, as
long as no collaborator resets it, the handles that it stores are those of nodes: in links,
representatives and members, in variants, in what is queued and in what waits. So no request, no
item and no pass needs a node that does not exist. A request with another handle is refused, and so
is a filter for a node of a component, and nothing at all is changed. -/
theorem Story.handles_housed {fits : Semantics ε τ σ → Prop} {log : List (Entry ε τ σ)}
    {w : World ε τ σ} (h : Story fits (fun deed => deed.isReset = false) log w) :
    (∀ n, ∀ s ∈ w.flow.graph.successors n, w.flow.graph.contains s) ∧
    (∀ n, w.flow.graph.contains n → w.flow.graph.contains (w.flow.graph.representative n)) ∧
    (∀ n, ∀ m ∈ w.flow.graph.members n, w.flow.graph.contains m) ∧
    (∀ id v, w.engine.variants.get? id = some v → ∀ n ∈ v.layout.nodes,
      w.flow.graph.contains n) ∧
    (∀ item, item ∈ w.flow.agenda.next.present ∨ item ∈ w.flow.agenda.next.entries →
      item.Inside w.flow.graph) ∧
    (∀ item delta, w.flow.agenda.delta? item = some delta → item.Inside w.flow.graph) ∧
    w.flow.InBounds w.sieve ∧
    (∀ n, ¬ w.flow.graph.contains n →
      (∀ target, w.link n target = (.error (.usage (.unknownNode n)), w)) ∧
      (∀ source, w.flow.graph.contains source →
        w.link source n = (.error (.usage (.unknownNode n)), w)) ∧
      (∀ tokens, w.deliver n tokens = (.error (.usage (.unknownNode n)), w)) ∧
      (∀ tokens, w.offer n tokens = (.error (.usage (.unknownNode n)), w)) ∧
      (∀ f, w.setFilter n f = (.error (.usage (.unknownNode n)), w)) ∧
      ∀ react, w.listen n react = (.error (.usage (.unknownNode n)), w)) ∧
    (∀ n f, w.flow.graph.contains n → w.flow.graph.fused n →
      w.setFilter n f = (.error (.usage (.filterOnFused n)), w)) := by
  have hhoused := h.holds (lasting_housed fits) h.only
  have howned := h.holds (lasting_owned fits)
  have hwf := hhoused.flow.wellFormed
  refine ⟨fun _ _ => hwf.contains_successor, fun _ => hwf.contains_rep,
    fun _ _ => hwf.contains_member, fun id v hv n hn => ?_,
    fun _ hitem => hitem.elim hhoused.flow.agenda.queued.present hhoused.flow.agenda.queued.entries,
    fun _ _ => hhoused.flow.agenda.waiting, hhoused.flow.inBounds, fun n hn => ?_,
    fun n f hn hfused => ?_⟩
  · obtain ⟨role, hslot⟩ := Layout.mem_nodes.mp hn
    exact howned.contains_of_slot hv hslot
  · have hbad := w.checkNode_eq_error hn
    exact ⟨fun _ => by simp [World.link, hbad],
      fun _ hsource => by simp [World.link, World.checkNode_eq_ok hsource, hbad],
      fun _ => by simp [World.deliver, hbad], fun _ => by simp [World.offer, hbad],
      fun _ => by simp [World.setFilter, hbad], fun _ => by simp [World.listen, hbad]⟩
  · have hrefused : w.flow.setFilter n f = .error (.filterOnFused n) := by
      simp [Flow.setFilter, Graph.setFilter, hfused, Except.map]
    simp [World.setFilter, World.checkNode_eq_ok hn, hrefused]

/-- Two nodes in a circle lead to a third, which has tokens to come; handles of no node are handed
in between. -/
def carelessCaller : Routine Nat Nat Unit :=
  .addNode fun a => .addNode fun b => .addNode fun c => .link a b fun _ => .link b ⟨9⟩ fun _ =>
    .link b a fun _ => .link b c fun _ => .listen ⟨7⟩ (fun _ _ => .done) fun _ => .condense fun _ =>
      .deliver b (.singleton 5) fun _ => .deliver ⟨8⟩ (.singleton 6) fun _ => .done

theorem handles_housed_carelessCaller :
    ∃ w, Story (fun _ => True) (fun deed => deed.isReset = false)
        (World.deeds 1 carelessCaller ⟨.new default, (), true⟩) w ∧
      ¬ w.flow.graph.contains ⟨9⟩ ∧ w.flow.graph.members ⟨0⟩ = [⟨1⟩, ⟨0⟩] ∧
      w.flow.agenda.next.present = [.send ⟨2⟩] ∧ w.flow.graph.contains ⟨2⟩ ∧
      w.flow.InBounds w.sieve ∧
      w.link ⟨0⟩ ⟨9⟩ = (.error (.usage (.unknownNode ⟨9⟩)), w) ∧
      w.deliver ⟨9⟩ ∅ = (.error (.usage (.unknownNode ⟨9⟩)), w) ∧
      w.setFilter ⟨1⟩ (fun _ tokens => tokens) = (.error (.usage (.filterOnFused ⟨1⟩)), w) := by
  have hfacts : (World.run 1 carelessCaller ⟨.new default, (), true⟩).map (fun done =>
      (done.2.flow.graph.size, done.2.flow.graph.members ⟨0⟩, done.2.flow.graph.fused ⟨1⟩,
        done.2.flow.agenda.next.present)) = some (3, [⟨1⟩, ⟨0⟩], true, [.send ⟨2⟩]) := by
    decide +kernel
  have hfree : (World.deeds 1 carelessCaller ⟨.new default, (), true⟩).all
      (fun x => x.deed.isReset = false) := by decide +kernel
  obtain ⟨⟨_, w⟩, hrun, heq⟩ := Option.map_eq_some_iff.mp hfacts
  simp only [Prod.mk.injEq] at heq
  obtain ⟨hsize, hmembers, hfused, hpresent⟩ := heq
  have hin : ∀ {n}, w.flow.graph.contains n ↔ n.index < 3 := by
    rw [← hsize]
    exact Graph.contains_iff
  have hstory : Story (fun _ => True) (fun deed => deed.isReset = false)
      (World.deeds 1 carelessCaller ⟨.new default, (), true⟩) w :=
    (Story.new default () true).call (by simpa using hfree) hrun
  obtain ⟨-, -, -, -, hqueued, -, hbounds, hbad, hfilter⟩ := hstory.handles_housed
  have hnine : ¬ w.flow.graph.contains ⟨9⟩ := by simp [hin]
  obtain ⟨-, hlink, hdeliver, -⟩ := hbad ⟨9⟩ hnine
  exact ⟨w, hstory, hnine, hmembers, hpresent,
    hqueued (.send ⟨2⟩) (.inl (hpresent ▸ List.mem_singleton_self _)), hbounds,
    hlink ⟨0⟩ (by simp [hin]), hdeliver ∅, hfilter ⟨1⟩ _ (by simp [hin]) hfused⟩

end ValueFlow
