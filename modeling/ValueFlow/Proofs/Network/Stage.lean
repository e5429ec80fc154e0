import ValueFlow.Proofs.Flow.Machine
import ValueFlow.Proofs.Network.Basic

/-!
# How far the analysis of a network has come

Every request that is made for a network is a step on the flow, so a world that the analysis of a
network reaches belongs to a run of the flow (`Network.Stage`), whose commands are all asked for by
the network. The node of an entity has the same number as its variant.

Nothing is taken back: from one stage to a later one, commands, entities and tasks are only added
(`Network.Leads`). That an entity has been taken care of (`Network.Covered`) therefore stays true.
-/

namespace ValueFlow

open ValueFlow.Flow

/-! ## 1. Tables without contexts -/

namespace VariantTable

variable {ε : Type} {t : VariantTable ε} {v : ε} {i : Nat}

/-- The entities that have a variant, by its number. -/
def entities (t : VariantTable ε) : List ε := t.variants.toList.map Variant.entity

/-- **One variant for every entity**, without a context, and with a single node of the same
number. -/
structure Plain (t : VariantTable ε) : Prop where
  row : ∀ {i : Nat} {x : Variant ε}, t.variants[i]? = some x →
    x.context = .empty ∧ x.layout = .value ⟨i⟩
  nodup : t.entities.Nodup

theorem length_entities : t.entities.length = t.variants.size := by
  simp [entities]

theorem getElem?_entities : t.entities[i]? = (t.variants[i]?).map Variant.entity := by
  simp [entities]

theorem Plain.get? (h : t.Plain) (hv : t.entities[i]? = some v) :
    t.get? ⟨i⟩ = some ⟨v, .empty, .value ⟨i⟩⟩ := by
  rw [getElem?_entities] at hv
  obtain ⟨x, hx, rfl⟩ := Option.map_eq_some_iff.mp hv
  obtain ⟨hcontext, hlayout⟩ := h.row hx
  show t.variants[i]? = _
  rw [hx, ← hcontext, ← hlayout]

variable [DecidableEq ε]

theorem Plain.find?_eq_none (h : t.Plain) : t.find? v .empty = none ↔ v ∉ t.entities := by
  unfold entities
  rw [find?_eq, Option.map_eq_none_iff, Array.findIdx?_eq_none_iff, List.mem_map]
  constructor
  · rintro hall ⟨x, hx, rfl⟩
    obtain ⟨i, hi⟩ := List.mem_iff_getElem?.mp hx
    have hcontext := (h.row (i := i) (x := x) (by simpa using hi)).1
    have := hall x (Array.mem_def.mpr hx)
    simp [hcontext] at this
  · intro hno x hx
    have hne : x.entity ≠ v := fun e => hno ⟨x, Array.mem_def.mp hx, e⟩
    simp [hne]

theorem getElem?_of_find? {id : VariantId} (hf : t.find? v .empty = some id) :
    t.entities[id.index]? = some v := by
  obtain ⟨x, hx, rfl, -⟩ := get?_of_find? hf
  unfold VariantTable.get? at hx
  rw [getElem?_entities, hx, Option.map_some]

theorem Plain.find? (h : t.Plain) (hv : t.entities[i]? = some v) :
    t.find? v .empty = some ⟨i⟩ := by
  cases hf : t.find? v .empty with
  | none => exact absurd (List.mem_of_getElem? hv) (h.find?_eq_none.mp hf)
  | some id =>
    have hid := getElem?_of_find? hf
    have hlt : i < t.entities.length := (List.getElem?_eq_some_iff.mp hv).1
    have e : i = id.index := (List.getElem?_inj hlt h.nodup).mp (hv.trans hid.symm)
    rw [e]

/-- A new variant comes last. -/
theorem Plain.register (h : t.Plain) (hv : v ∉ t.entities) :
    ∃ t', t.register v .empty (.value ⟨t.entities.length⟩) = (⟨t.entities.length⟩, t') ∧
      t'.Plain ∧ t'.entities = t.entities ++ [v] := by
  rw [register_of_none (h.find?_eq_none.mpr hv), length_entities]
  have hentities : (t.push (t.pool.get v .empty).2 ⟨v, .empty⟩
      ⟨v, .empty, .value ⟨t.variants.size⟩⟩ rfl).entities = t.entities ++ [v] := by
    simp [entities, push]
  refine ⟨_, rfl, ⟨fun {i x} hx => ?_, ?_⟩, hentities⟩
  · unfold push at hx
    dsimp only at hx
    rw [Array.getElem?_push] at hx
    split at hx
    · rename_i hi
      cases hx
      exact ⟨rfl, by rw [hi]⟩
    · exact h.row hx
  · rw [hentities]
    exact List.nodup_append.mpr ⟨h.nodup, List.nodup_singleton v, fun a ha b hb e =>
      hv (List.mem_singleton.mp hb ▸ e ▸ ha)⟩

end VariantTable

/-! ## 2. Stages -/

variable {ε τ σ : Type} [Ordered τ]

/-- What filters let through when collaborators know `s`. -/
def sieveAt (s : σ) (f : Filter σ τ) (tokens : TokenSet τ) : TokenSet τ := f s tokens

/-- All of a world but its flow and its counters. -/
structure Frame (ε τ σ : Type) [Ordered τ] where
  shared : σ
  active : Bool
  semantics : Option (Semantics ε τ σ)
  phase : Phase
  variants : VariantTable ε
  tasks : Table TaskId (Routine ε τ σ)
  nextTask : TaskId

namespace World

def frame (w : World ε τ σ) : Frame ε τ σ :=
  ⟨w.shared, w.active, w.engine.semantics, w.engine.phase, w.engine.variants, w.engine.tasks,
    w.engine.nextTask⟩

/-- The entities that have a variant. -/
def entities (w : World ε τ σ) : List ε := w.engine.variants.entities

/-- The entity has a variant, whose node is `n`. -/
def At (w : World ε τ σ) (v : ε) (n : NodeId) : Prop := w.entities[n.index]? = some v

theorem At.lt {w : World ε τ σ} {v : ε} {n : NodeId} (h : w.At v n) :
    n.index < w.entities.length :=
  (List.getElem?_eq_some_iff.mp h).1

theorem At.mem {w : World ε τ σ} {v : ε} {n : NodeId} (h : w.At v n) : v ∈ w.entities :=
  List.mem_of_getElem? h

theorem entities_of_frame {w w' : World ε τ σ} (h : w'.frame = w.frame) :
    w'.entities = w.entities :=
  congrArg (fun f : Frame ε τ σ => f.variants.entities) h

end World

namespace Network

variable [DecidableEq ε]

/-- **The command is one that the network asks for**, where `es` are the entities by the number of
their nodes. -/
def Asks (p : Network ε τ) (es : List ε) : Command (Filter σ τ) τ → Prop
  | .deliver n tokens => ∃ v, es[n.index]? = some v ∧ tokens = p.seeds v
  | .link m n =>
    ∃ u v, es[m.index]? = some u ∧ es[n.index]? = some v ∧ (u, v) ∈ p.edges
  | .setFilter n f => ∃ v rule, es[n.index]? = some v ∧ p.rule? v = some rule ∧ f = keeping rule
  | .offer _ _ | .subscribe _ _ => False
  | _ => True

/-- **How far the analysis of a network has come**: which commands the flow has seen, and which
bags are being worked off. -/
structure Stage (p : Network ε τ) (roots : List ε) (s : σ) (cs : List (Command (Filter σ τ) τ))
    (bags : List (Bag WorkItem)) (w : World ε τ σ) : Prop where
  run : ∃ order, Machine.Run (sieveAt s) order cs ⟨w.flow, bags⟩
  asked : ∀ c ∈ cs, p.Asks w.entities c
  shared : w.shared = s
  active : w.active = true
  semantics : w.engine.semantics = some p.semantics
  unstable : w.engine.phase = .unstable
  plain : w.engine.variants.Plain
  nodes : ∀ n, w.flow.graph.contains n = true ↔ n.index < w.entities.length
  reachable : ∀ v ∈ w.entities, p.Reachable roots v
  tasks : ∀ {id r}, w.engine.tasks.get? id = some r → id.index < w.engine.nextTask.index ∧
    ∃ v n, w.At v n ∧ r = connect n (p.successors v)

/-- **Nothing is taken back** from `w` to `w'`. -/
structure Leads (cs : List (Command (Filter σ τ) τ)) (w : World ε τ σ)
    (cs' : List (Command (Filter σ τ) τ)) (w' : World ε τ σ) : Prop where
  commands : cs ⊆ cs'
  entities : w.entities <+: w'.entities
  tasks : ∀ {id r}, w.engine.tasks.get? id = some r → w'.engine.tasks.get? id = some r
  grows : w.flow.Grows w'.flow

variable {p : Network ε τ} {roots : List ε} {s : σ} {cs cs' cs'' : List (Command (Filter σ τ) τ)}
  {bags bags' : List (Bag WorkItem)} {w w' w'' : World ε τ σ} {v : ε} {n : NodeId}

omit [DecidableEq ε] in
theorem getElem?_of_prefix {es es' : List ε} (h : es <+: es') {i : Nat} (hv : es[i]? = some v) :
    es'[i]? = some v := by
  obtain ⟨hlt, rfl⟩ := List.getElem?_eq_some_iff.mp hv
  exact List.prefix_iff_getElem?.mp h _ hlt

omit [DecidableEq ε] in
theorem Asks.mono {es es' : List ε} (h : es <+: es') {c : Command (Filter σ τ) τ}
    (hc : p.Asks es c) : p.Asks es' c := by
  cases c with
  | deliver n tokens =>
    obtain ⟨v, hv, e⟩ := hc
    exact ⟨v, getElem?_of_prefix h hv, e⟩
  | link m n =>
    obtain ⟨u, v, hu, hv, e⟩ := hc
    exact ⟨u, v, getElem?_of_prefix h hu, getElem?_of_prefix h hv, e⟩
  | setFilter n f =>
    obtain ⟨v, rule, hv, e⟩ := hc
    exact ⟨v, rule, getElem?_of_prefix h hv, e⟩
  | _ => exact hc

omit [DecidableEq ε] in
theorem Leads.at (h : Leads cs w cs' w') (hv : w.At v n) : w'.At v n :=
  getElem?_of_prefix h.entities hv

omit [DecidableEq ε] in
/-- An entity whose number was taken already was there with that number. -/
theorem Leads.at_of_lt (h : Leads cs w cs' w') (hv : w'.At v n) (hn : n.index < w.entities.length) :
    w.At v n := by
  have hget : w.At w.entities[n.index] n := List.getElem?_eq_getElem hn
  have e : w.entities[n.index] = v := Option.some.inj ((h.at hget).symm.trans hv)
  exact e ▸ hget

omit [DecidableEq ε] in
theorem Leads.trans (h : Leads cs w cs' w') (h' : Leads cs' w' cs'' w'') :
    Leads cs w cs'' w'' where
  commands _ hc := h'.commands (h.commands hc)
  entities := h.entities.trans h'.entities
  tasks hid := h'.tasks (h.tasks hid)
  grows := h.grows.trans h'.grows

omit [DecidableEq ε] in
/-- A bound on what is missing stays one. -/
theorem Leads.room (h : Leads cs w cs' w') {bound depth : Nat}
    (hroom : bound ≤ w.entities.length + depth) : bound ≤ w'.entities.length + depth := by
  have := h.entities.length_le
  omega

/-! ## 3. Requests -/

section Step

variable {c : Command (Filter σ τ) τ}

omit [DecidableEq ε] in
theorem Leads.of_frame (hframe : w'.frame = w.frame) (hgrows : w.flow.Grows w'.flow)
    (cs : List (Command (Filter σ τ) τ)) (c : Command (Filter σ τ) τ) :
    Leads cs w (cs ++ [c]) w' where
  commands _ hc := List.mem_append_left _ hc
  entities := by rw [World.entities_of_frame hframe]
  tasks hid := by
    have htasks : w'.engine.tasks = w.engine.tasks := congrArg Frame.tasks hframe
    rw [htasks]
    exact hid
  grows := hgrows

/-- **A step on the flow** that leaves everything else as it is. -/
theorem Stage.step (h : Stage p roots s cs bags w)
    (hstep : Machine.Step (sieveAt s) ⟨w.flow, bags⟩ c ⟨w'.flow, bags'⟩)
    (hc : p.Asks w.entities c) (hnew : ∀ label, c ≠ .addNode label)
    (hframe : w'.frame = w.frame) : Stage p roots s (cs ++ [c]) bags' w' := by
  obtain ⟨order, hrun⟩ := h.run
  have hvariants : w'.engine.variants = w.engine.variants := congrArg Frame.variants hframe
  have hentities := World.entities_of_frame hframe
  have htasks : w'.engine.tasks = w.engine.tasks := congrArg Frame.tasks hframe
  have hnext : w'.engine.nextTask = w.engine.nextTask := congrArg Frame.nextTask hframe
  refine
    { run := ⟨order, hrun.step hstep⟩
      asked := fun c' hc' => ?_
      shared := (congrArg Frame.shared hframe).trans h.shared
      active := (congrArg Frame.active hframe).trans h.active
      semantics := (congrArg Frame.semantics hframe).trans h.semantics
      unstable := (congrArg Frame.phase hframe).trans h.unstable
      plain := hvariants ▸ h.plain
      nodes := fun n => ?_
      reachable := hentities ▸ h.reachable
      tasks := fun {id r} hid => ?_ }
  · rw [hentities]
    rcases List.mem_append.mp hc' with hc' | hc'
    · exact h.asked c' hc'
    · rw [List.mem_singleton.mp hc']
      exact hc
  · rw [hentities, ← h.nodes n]
    exact Bool.eq_iff_iff.mp (hrun.inv.contains_step hstep hnew n)
  · unfold World.At
    rw [htasks] at hid
    rw [hnext, hentities]
    exact h.tasks hid

end Step

theorem Stage.sieve (h : Stage p roots s cs bags w) : w.sieve = sieveAt s := by
  rw [← h.shared]
  rfl

theorem Stage.contains (h : Stage p roots s cs bags w) (hv : w.At v n) :
    w.flow.graph.contains n :=
  (h.nodes n).mpr hv.lt

theorem Stage.size (h : Stage p roots s cs bags w) : w.flow.graph.size = w.entities.length := by
  refine Nat.le_antisymm (Nat.le_of_not_lt fun hlt => ?_) (Nat.le_of_not_lt fun hlt => ?_)
  · have := (h.nodes ⟨w.entities.length⟩).mp (Graph.contains_iff.mpr hlt)
    exact Nat.lt_irrefl _ this
  · exact Graph.not_contains_size ((h.nodes ⟨w.flow.graph.size⟩).mpr hlt)

theorem Stage.checkNode (h : Stage p roots s cs bags w) (hv : w.At v n) :
    w.checkNode n = .ok () := by
  unfold World.checkNode
  rw [if_pos (h.contains hv)]

theorem Stage.link (h : Stage p roots s cs bags w) {u : ε} {m : NodeId} (hu : w.At u m)
    (hv : w.At v n) (he : (u, v) ∈ p.edges) :
    ∃ fresh w', w.link m n = (.ok fresh, w') ∧ w'.frame = w.frame ∧
      Stage p roots s (cs ++ [.link m n]) bags w' ∧ w.flow.Advances w'.flow := by
  obtain ⟨order, hrun⟩ := h.run
  have hstep : Machine.Step (sieveAt s) ⟨w.flow, bags⟩ (.link m n)
      ⟨(w.flow.link (sieveAt s) m n).2, bags⟩ := .link _ (h.contains hu) (h.contains hv)
  refine ⟨(w.flow.link w.sieve m n).1, w.setFlow (w.flow.link (sieveAt s) m n).2, ?_, rfl,
    h.step hstep ⟨u, v, hu, hv, he⟩ nofun rfl, hrun.inv.advances_step hstep rfl⟩
  unfold World.link
  rw [h.checkNode hu, h.checkNode hv, h.sieve]

theorem Stage.deliver (h : Stage p roots s cs bags w) (hv : w.At v n) :
    ∃ grew w', w.deliver n (p.seeds v) = (.ok grew, w') ∧ w'.frame = w.frame ∧
      Stage p roots s (cs ++ [.deliver n (p.seeds v)]) bags w' ∧ w.flow.Advances w'.flow := by
  obtain ⟨order, hrun⟩ := h.run
  have hstep : Machine.Step (sieveAt s) ⟨w.flow, bags⟩ (.deliver n (p.seeds v))
      ⟨(w.flow.deliver (sieveAt s) n (p.seeds v)).2, bags⟩ := .deliver _ _ (h.contains hv)
  refine ⟨(w.flow.deliver w.sieve n (p.seeds v)).1,
    w.setFlow (w.flow.deliver (sieveAt s) n (p.seeds v)).2, ?_, rfl,
    h.step hstep ⟨v, hv, rfl⟩ nofun rfl, hrun.inv.advances_step hstep rfl⟩
  unfold World.deliver
  rw [h.checkNode hv, h.sieve]

/-- The node is as it was made: nothing has come to it, and it has no filter yet. -/
structure Untouched (g : Graph (Filter σ τ) τ) (n : NodeId) : Prop where
  filter : g.filter? n = none
  tokens : g.tokens n = ∅
  alone : g.fused n = false

theorem untouched_addNode (g : Graph (Filter σ τ) τ) (label : Option Label) :
    Untouched (g.addNode label).2 ⟨g.size⟩ where
  filter := by
    rw [Graph.filter?_addNode, Graph.filter?_eq,
      Graph.readAt_of_not_contains Graph.not_contains_size]
  tokens := by
    unfold Graph.tokens
    rw [Graph.representative_addNode, Graph.stored_addNode,
      Graph.representative_of_not_contains Graph.not_contains_size,
      Graph.stored_of_not_contains Graph.not_contains_size]
  alone := by
    rw [Graph.fused_addNode, Graph.fused_eq, Graph.readAt_of_not_contains Graph.not_contains_size]

theorem Stage.setFilter (h : Stage p roots s cs bags w) (hv : w.At v n) {rule : τ → Bool}
    (hrule : p.rule? v = some rule) (hn : Untouched w.flow.graph n) :
    ∃ w', w.setFilter n (keeping rule) = (.ok (), w') ∧ w'.frame = w.frame ∧
      Stage p roots s (cs ++ [.setFilter n (keeping rule)]) bags w' ∧
      w.flow.Advances w'.flow := by
  obtain ⟨order, hrun⟩ := h.run
  obtain ⟨flow, hok⟩ : ∃ flow, w.flow.setFilter n (keeping rule) = .ok flow := by
    unfold Flow.setFilter Graph.setFilter
    rw [hn.alone]
    exact ⟨_, rfl⟩
  have hstep : Machine.Step (sieveAt s) ⟨w.flow, bags⟩ (.setFilter n (keeping rule)) ⟨flow, bags⟩ :=
    .setFilter _ (h.contains hv) ⟨rule, fun _ => rfl⟩ hn.filter hn.tokens hok
  refine ⟨w.setFlow flow, ?_, rfl, h.step hstep ⟨v, rule, hv, hrule, rfl⟩ nofun rfl,
    hrun.inv.advances_step hstep rfl⟩
  unfold World.setFilter
  rw [h.checkNode hv, hok]

/-- What is left to the next round is queued under a new number. -/
theorem Stage.postpone (h : Stage p roots s cs bags w) (hv : w.At v n) :
    ∃ id w', w.postpone (connect n (p.successors v)) = (id, w') ∧
      Stage p roots s (cs ++ [.schedule id]) bags w' ∧ Leads cs w (cs ++ [.schedule id]) w' ∧
      w'.engine.tasks.get? id = some (connect n (p.successors v)) ∧
      .task id ∈ w'.flow.agenda.next.present := by
  obtain ⟨order, hrun⟩ := h.run
  have hstep : Machine.Step (sieveAt s) ⟨w.flow, bags⟩ (.schedule w.engine.nextTask)
      ⟨(w.postpone (connect n (p.successors v))).2.flow, bags⟩ := .schedule _ _
  have hget : ∀ id, (w.postpone (connect n (p.successors v))).2.engine.tasks.get? id =
      if w.engine.nextTask = id then some (connect n (p.successors v))
        else w.engine.tasks.get? id := fun id => Table.get?_set _ _ _ _
  have hold : ∀ {id r}, w.engine.tasks.get? id = some r → w.engine.nextTask ≠ id := by
    intro id r hid e
    have hlt := (h.tasks hid).1
    rw [e] at hlt
    omega
  refine ⟨_, _, rfl,
    { run := ⟨order, hrun.step hstep⟩
      asked := fun c hc => ?_
      shared := h.shared
      active := h.active
      semantics := h.semantics
      unstable := h.unstable
      plain := h.plain
      nodes := h.nodes
      reachable := h.reachable
      tasks := fun {id r} hid => ?_ },
    { commands := fun _ hc => List.mem_append_left _ hc
      entities := List.prefix_rfl
      tasks := fun {id r} hid => ?_
      grows := ⟨fun _ hx => hx, fun id hid => Bag.mem_present_add.mpr (.inr hid)⟩ }, ?_, ?_⟩
  · rcases List.mem_append.mp hc with hc | hc
    · exact h.asked c hc
    · rw [List.mem_singleton.mp hc]
      trivial
  · show id.index < w.engine.nextTask.index + 1 ∧ _
    have hid := (hget id).symm.trans hid
    split at hid
    · rename_i hnew
      cases hid
      exact ⟨by rw [hnew]; omega, v, n, hv, rfl⟩
    · obtain ⟨hlt, hr⟩ := h.tasks hid
      exact ⟨by omega, hr⟩
  · exact ((hget id).trans (if_neg (hold hid))).trans hid
  · exact (hget _).trans (if_pos rfl)
  · exact Bag.mem_present_add.mpr (.inl rfl)

/-- **A new variant** has a new node of the same number. -/
theorem Stage.create (h : Stage p roots s cs bags w) (hv : v ∉ w.entities)
    (hr : p.Reachable roots v) :
    ∃ label w', w.create v .empty .value = (⟨w.entities.length⟩, w') ∧
      Stage p roots s (cs ++ [.addNode label]) bags w' ∧ Leads cs w (cs ++ [.addNode label]) w' ∧
      w'.entities = w.entities ++ [v] ∧ Untouched w'.flow.graph ⟨w.entities.length⟩ := by
  obtain ⟨order, hrun⟩ := h.run
  have hsize := h.size
  obtain ⟨table, htable, hplain, hentities⟩ := h.plain.register hv
  let label : Option Label := some (.of w.engine.variants.nextId .value)
  have hcreate : w.create v .empty .value = (⟨w.entities.length⟩, { w with engine :=
      { w.engine with
        flow := (w.flow.addNode label).2
        variants := table
        stats := { w.engine.stats with
          nodes := w.engine.stats.nodes + 1
          variants := w.engine.stats.variants + 1 } } }) := by
    have hnode : (w.flow.addNode label).1 = ⟨w.entities.length⟩ := by
      show (⟨w.flow.graph.size⟩ : NodeId) = _
      rw [hsize]
    unfold World.create World.addLayout World.addLabelled
    dsimp only
    rw [hnode]
    have htable : w.engine.variants.register v .empty (.value ⟨w.entities.length⟩) = _ := htable
    rw [htable]
    rfl
  refine ⟨label, _, hcreate,
    { run := ⟨order, hrun.step (.addNode _ label)⟩
      asked := fun c hc => ?_
      shared := h.shared
      active := h.active
      semantics := h.semantics
      unstable := h.unstable
      plain := hplain
      nodes := fun n => ?_
      reachable := fun u hu => ?_
      tasks := fun {id r} hid => ?_ },
    { commands := fun _ hc => List.mem_append_left _ hc
      entities := ?_
      tasks := fun hid => hid
      grows := (advances_addNode label).toGrows }, hentities,
    hsize ▸ untouched_addNode w.flow.graph label⟩
  · show p.Asks table.entities c
    rcases List.mem_append.mp hc with hc | hc
    · rw [hentities]
      exact (h.asked c hc).mono (List.prefix_append _ _)
    · rw [List.mem_singleton.mp hc]
      trivial
  · show (w.flow.graph.addNode label).2.contains n = true ↔ n.index < table.entities.length
    rw [Graph.contains_addNode, h.nodes, hentities, hsize, ← NodeId.index_inj, List.length_append]
    exact Nat.lt_succ_iff_lt_or_eq.symm
  · have hu : u ∈ table.entities := hu
    rw [hentities, List.mem_append, List.mem_singleton] at hu
    rcases hu with hu | rfl
    · exact h.reachable u hu
    · exact hr
  · obtain ⟨hlt, u, m, hu, e⟩ := h.tasks hid
    refine ⟨hlt, u, m, ?_, e⟩
    show table.entities[m.index]? = some u
    rw [hentities]
    exact getElem?_of_prefix (List.prefix_append _ _) hu
  · show w.entities <+: table.entities
    rw [hentities]
    exact List.prefix_append _ _

end Network

end ValueFlow
