import Mathlib.Data.List.Nodup
import ValueFlow.Proofs.Network.Stage

/-!
# Discovering a network

An entity is taken care of (`Network.Covered`) when its rule is up, its tokens are handed over, and
it is linked to its successors, or a task that will do so is waiting.

To look for an entity may create it, and its discovery looks for its successors in turn. How deep
this goes is bounded by the number of entities that are still missing: `finds` is an induction on
the depth, `connect_spec` one on the list of successors. Both say that all entities that come up on
the way have been taken care of at the end (`Network.Explores`).
-/

namespace ValueFlow.Network

open ValueFlow.Flow

variable {ε τ σ : Type} [Ordered τ] [DecidableEq ε]

/-! ## 1. Entities that have been taken care of -/

/-- The rule of the entity is up, and its tokens were handed over. -/
def Entered (p : Network ε τ) (cs : List (Command (Filter σ τ) τ)) (v : ε) (n : NodeId) : Prop :=
  .deliver n (p.seeds v) ∈ cs ∧ ∀ rule, p.rule? v = some rule → .setFilter n (keeping rule) ∈ cs

/-- The node is linked to the nodes of these entities. -/
def Joined (w : World ε τ σ) (n : NodeId) (vs : List ε) : Prop :=
  ∀ v ∈ vs, ∃ m, w.At v m ∧ m ∈ w.flow.graph.successors n

/-- The task is queued or in a bag. -/
def Due (bags : List (Bag WorkItem)) (w : World ε τ σ) (task : TaskId) : Prop :=
  .task task ∈ w.flow.agenda.next.present ∨ ∃ bag ∈ bags, .task task ∈ bag.present

/-- A task that will link the node is due. -/
def Pending (p : Network ε τ) (bags : List (Bag WorkItem)) (w : World ε τ σ) (v : ε) (n : NodeId) :
    Prop :=
  ∃ task, w.engine.tasks.get? task = some (connect n (p.successors v)) ∧ Due bags w task

/-- **The entity has been taken care of.** -/
def Covered (p : Network ε τ) (cs : List (Command (Filter σ τ) τ)) (bags : List (Bag WorkItem))
    (w : World ε τ σ) (v : ε) (n : NodeId) : Prop :=
  p.Entered cs v n ∧ (Joined w n (p.successors v) ∨ p.Pending bags w v n)

/-- **A part of the discovery**, at whose end all entities that are new have been taken care of. -/
structure Explores (p : Network ε τ) (roots : List ε) (s : σ) (bags : List (Bag WorkItem))
    (cs : List (Command (Filter σ τ) τ)) (w : World ε τ σ) (cs' : List (Command (Filter σ τ) τ))
    (w' : World ε τ σ) : Prop extends Leads cs w cs' w' where
  stage : Stage p roots s cs' bags w'
  covered : ∀ {v n}, w'.At v n → w.entities.length ≤ n.index → p.Covered cs' bags w' v n

section Facts

variable {p : Network ε τ} {roots : List ε} {s : σ} {cs cs' cs'' : List (Command (Filter σ τ) τ)}
  {bags : List (Bag WorkItem)} {w w' w'' : World ε τ σ} {v : ε} {n : NodeId} {vs : List ε}

omit [DecidableEq ε] in
theorem Leads.entered (h : Leads cs w cs' w') (hv : p.Entered cs v n) : p.Entered cs' v n :=
  ⟨h.commands hv.1, fun rule hr => h.commands (hv.2 rule hr)⟩

omit [DecidableEq ε] in
theorem Entered.append (hv : p.Entered cs v n) (c : Command (Filter σ τ) τ) :
    p.Entered (cs ++ [c]) v n :=
  ⟨List.mem_append_left _ hv.1, fun rule hr => List.mem_append_left _ (hv.2 rule hr)⟩

omit [DecidableEq ε] in
theorem Leads.joined (h : Leads cs w cs' w') (hn : Joined w n vs) : Joined w' n vs := by
  intro v hv
  obtain ⟨m, hm, hl⟩ := hn v hv
  exact ⟨m, h.at hm, h.grows.link hl⟩

theorem Leads.pending (h : Leads cs w cs' w') (hv : p.Pending bags w v n) :
    p.Pending bags w' v n := by
  obtain ⟨task, htask, hdue⟩ := hv
  exact ⟨task, h.tasks htask, hdue.imp (h.grows.tasks task) id⟩

theorem Leads.covered (h : Leads cs w cs' w') (hv : p.Covered cs bags w v n) :
    p.Covered cs' bags w' v n :=
  ⟨h.entered hv.1, hv.2.imp h.joined h.pending⟩

theorem Explores.trans (h : p.Explores roots s bags cs w cs' w')
    (h' : p.Explores roots s bags cs' w' cs'' w'') : p.Explores roots s bags cs w cs'' w'' where
  toLeads := h.toLeads.trans h'.toLeads
  stage := h'.stage
  covered {v n} hv hn := by
    by_cases hold : n.index < w'.entities.length
    · exact h'.toLeads.covered (h.covered (h'.at_of_lt hv hold) hn)
    · exact h'.covered hv (Nat.le_of_not_lt hold)

/-- Without new entities there is nothing more to take care of. -/
theorem Explores.of_leads (h : Leads cs w cs' w') (hstage : Stage p roots s cs' bags w')
    (he : w'.entities = w.entities) : p.Explores roots s bags cs w cs' w' where
  toLeads := h
  stage := hstage
  covered {v n} hv hn := by
    have hlt := hv.lt
    rw [he] at hlt
    omega

theorem Explores.of_frame {c : Command (Filter σ τ) τ} (hframe : w'.frame = w.frame)
    (hadv : w.flow.Advances w'.flow) (hstage : Stage p roots s (cs ++ [c]) bags w') :
    p.Explores roots s bags cs w (cs ++ [c]) w' :=
  .of_leads (.of_frame hframe hadv.toGrows cs c) hstage (World.entities_of_frame hframe)

theorem Explores.refl (h : Stage p roots s cs bags w) : p.Explores roots s bags cs w cs w :=
  .of_leads ⟨fun _ hc => hc, List.prefix_rfl, id, ⟨fun _ hx => hx, fun _ hid => hid⟩⟩ h rfl

end Facts

/-! ## 2. How many entities there can be -/

/-- A list that has all entities that can be reached. -/
def candidates (p : Network ε τ) (roots : List ε) : List ε := roots ++ p.edges.map Prod.snd

omit [DecidableEq ε] in
theorem Reachable.mem_candidates {p : Network ε τ} {roots : List ε} {v : ε}
    (h : p.Reachable roots v) : v ∈ p.candidates roots := by
  cases h with
  | root hv => exact List.mem_append_left _ hv
  | edge _ he => exact List.mem_append_right _ (List.mem_map_of_mem he)

theorem mem_successors {p : Network ε τ} {u v : ε} : v ∈ p.successors u ↔ (u, v) ∈ p.edges := by
  unfold successors
  simp

section Bound

variable {p : Network ε τ} {roots : List ε} {s : σ} {cs : List (Command (Filter σ τ) τ)}
  {bags : List (Bag WorkItem)} {w : World ε τ σ} {v : ε}

theorem Stage.length_le (h : Stage p roots s cs bags w) :
    w.entities.length ≤ (p.candidates roots).length :=
  (h.plain.nodup.subperm fun v hv => (h.reachable v hv).mem_candidates).length_le

theorem Stage.length_lt (h : Stage p roots s cs bags w) (hv : v ∉ w.entities)
    (hr : p.Reachable roots v) : w.entities.length < (p.candidates roots).length := by
  have hnodup : (v :: w.entities).Nodup := List.nodup_cons.mpr ⟨hv, h.plain.nodup⟩
  refine (hnodup.subperm fun u hu => ?_).length_le
  rcases List.mem_cons.mp hu with rfl | hu
  · exact hr.mem_candidates
  · exact (h.reachable u hu).mem_candidates

end Bound

/-! ## 3. Looking for entities -/

/-- **Entities are found** where the discoveries that this takes may nest `depth` deep. -/
def Finds (p : Network ε τ) (roots : List ε) (s : σ) (bags : List (Bag WorkItem)) (depth : Nat) :
    Prop :=
  ∀ (cs : List (Command (Filter σ τ) τ)) (w : World ε τ σ) (v : ε) (c : Context ε),
    Stage p roots s cs bags w → p.Reachable roots v →
    (p.candidates roots).length ≤ w.entities.length + depth →
    ∃ cs' w' n, World.instantiate (World.run depth) v c w = some (.ok (some ⟨n.index⟩), w') ∧
      p.Explores roots s bags cs w cs' w' ∧ w.flow.Advances w'.flow ∧ w'.At v n

section Discovery

variable {p : Network ε τ} {roots : List ε} {s : σ} {cs : List (Command (Filter σ τ) τ)}
  {bags : List (Bag WorkItem)} {w : World ε τ σ} {u v : ε} {n : NodeId} {depth : Nat}

/-- The node of a variant is what its table says. -/
theorem Stage.node? (h : Stage p roots s cs bags w) (hv : w.At v n) :
    ((w.engine.variants.get? ⟨n.index⟩).bind fun x => x.layout.node?) = some n := by
  rw [h.plain.get? hv]
  rfl

/-- **An entity is connected with its successors**, which are looked for one by one. -/
theorem connect_spec (hfinds : p.Finds roots s bags depth) (vs : List ε) :
    ∀ (cs : List (Command (Filter σ τ) τ)) (w : World ε τ σ), Stage p roots s cs bags w →
      w.At u n → (∀ v ∈ vs, (u, v) ∈ p.edges) →
      (p.candidates roots).length ≤ w.entities.length + depth →
      ∃ cs' w', (connect n vs).runWith (World.run depth) w = some (.ok (), w') ∧
        p.Explores roots s bags cs w cs' w' ∧ w.flow.Advances w'.flow ∧ Joined w' n vs := by
  induction vs with
  | nil => exact fun cs w h _ _ _ => ⟨cs, w, rfl, .refl h, .refl _, nofun⟩
  | cons v vs ih =>
    intro cs w h hu hedges hroom
    have he := hedges v List.mem_cons_self
    have hr : p.Reachable roots v := .edge (h.reachable u hu.mem) he
    obtain ⟨cs₁, w₁, m, hinst, hex₁, hadv₁, hm⟩ := hfinds cs w v .empty h hr hroom
    have hu₁ := hex₁.at hu
    obtain ⟨fresh, w₂, hlink, hframe, hstage₂, hadv₂⟩ := hex₁.stage.link hu₁ hm he
    have hex₂ := Explores.of_frame hframe hadv₂ hstage₂
    obtain ⟨cs₃, w₃, hrun, hex₃, hadv₃, hjoined⟩ := ih _ w₂ hstage₂ (hex₂.at hu₁)
      (fun x hx => hedges x (List.mem_cons_of_mem _ hx)) ((hex₁.trans hex₂).room hroom)
    refine ⟨cs₃, w₃, ?_, (hex₁.trans hex₂).trans hex₃, (hadv₁.trans hadv₂).trans hadv₃,
      fun x hx => ?_⟩
    · simp only [connect, Routine.runWith, hinst, orFail]
      rw [hex₁.stage.node? hm]
      simp only [Routine.runWith, hlink, orFail]
      exact hrun
    · rcases List.mem_cons.mp hx with rfl | hx
      · obtain ⟨order, hrun₂⟩ := hstage₂.run
        have hlinked : m ∈ w₂.flow.graph.successors n :=
          (hrun₂.inv.links n m).mpr (List.mem_append_right _ List.mem_cons_self)
        exact ⟨m, hex₃.at (hex₂.at hm), hex₃.grows.link hlinked⟩
      · exact hjoined x hx

/-- Once its tokens are in, an entity is linked to its successors, or left to a task. -/
theorem spread_spec (hfinds : p.Finds roots s bags depth) (h : Stage p roots s cs bags w)
    (hv : w.At v n) (hroom : (p.candidates roots).length ≤ w.entities.length + depth) :
    ∃ cs' w', (p.spread v n).runWith (World.run depth) w = some (.ok (), w') ∧
      p.Explores roots s bags cs w cs' w' ∧
      (Joined w' n (p.successors v) ∨ p.Pending bags w' v n) := by
  unfold spread
  split
  · obtain ⟨task, w', hpostpone, hstage, hleads, htask, hqueued⟩ := h.postpone hv
    refine ⟨_, w', ?_, .of_leads hleads hstage ?_, .inr ⟨task, htask, .inl hqueued⟩⟩
    · simp only [Routine.runWith, hpostpone]
    · have hworld := congrArg (fun r => r.2.entities) hpostpone
      exact hworld.symm
  · obtain ⟨cs', w', hrun, hex, _, hjoined⟩ := connect_spec hfinds (p.successors v) cs w h hv
      (fun x hx => mem_successors.mp hx) hroom
    exact ⟨cs', w', hrun, hex, .inl hjoined⟩

/-- The tokens of an entity enter, and then its successors are looked at. -/
theorem fill_spec (hfinds : p.Finds roots s bags depth) (h : Stage p roots s cs bags w)
    (hv : w.At v n) (hroom : (p.candidates roots).length ≤ w.entities.length + depth)
    (hrule : ∀ rule, p.rule? v = some rule → .setFilter n (keeping rule) ∈ cs) :
    ∃ cs' w', (p.fill v n).runWith (World.run depth) w = some (.ok (), w') ∧
      p.Explores roots s bags cs w cs' w' ∧ p.Covered cs' bags w' v n := by
  obtain ⟨grew, w₁, hdeliver, hframe, hstage₁, hadv⟩ := h.deliver hv
  have hex₁ := Explores.of_frame hframe hadv hstage₁
  obtain ⟨cs₂, w₂, hrun, hex₂, hspread⟩ :=
    spread_spec hfinds hstage₁ (hex₁.at hv) (hex₁.room hroom)
  have hentered : p.Entered (cs ++ [.deliver n (p.seeds v)]) v n :=
    ⟨List.mem_append_right _ List.mem_cons_self,
      fun rule hr => List.mem_append_left _ (hrule rule hr)⟩
  refine ⟨cs₂, w₂, ?_, hex₁.trans hex₂, hex₂.toLeads.entered hentered, hspread⟩
  simp only [fill, Routine.runWith, hdeliver, orFail]
  exact hrun

/-- **The discovery of a new entity** takes care of it, and of all that come up on the way. -/
theorem discover_spec (hfinds : p.Finds roots s bags depth) (h : Stage p roots s cs bags w)
    (hv : w.At v n) (hnew : Untouched w.flow.graph n)
    (hroom : (p.candidates roots).length ≤ w.entities.length + depth) :
    ∃ cs' w', (p.discover ⟨n.index⟩).runWith (World.run depth) w = some (.ok (), w') ∧
      p.Explores roots s bags cs w cs' w' ∧ p.Covered cs' bags w' v n := by
  have hdiscover : (p.discover ⟨n.index⟩).runWith (World.run depth) w =
      (p.setUp v n).runWith (World.run depth) w := by
    simp only [discover, Routine.runWith]
    rw [h.plain.get? hv]
    rfl
  rw [hdiscover]
  unfold setUp
  cases hrule : p.rule? v with
  | none =>
    refine fill_spec hfinds h hv hroom fun rule hr => ?_
    rw [hrule] at hr
    cases hr
  | some rule =>
    obtain ⟨w₁, hset, hframe, hstage₁, hadv⟩ := h.setFilter hv hrule hnew
    have hex₁ := Explores.of_frame hframe hadv hstage₁
    obtain ⟨cs₂, w₂, hrun, hex₂, hcovered⟩ :=
      fill_spec hfinds hstage₁ (hex₁.at hv) (hex₁.room hroom) fun rule' hr => by
        rw [hrule] at hr
        cases hr
        exact List.mem_append_right _ List.mem_cons_self
    refine ⟨cs₂, w₂, ?_, hex₁.trans hex₂, hcovered⟩
    simp only [Routine.runWith, hset, orFail]
    exact hrun

/-- An entity that has a variant is found as it is. -/
theorem Stage.instantiate_of_mem (h : Stage p roots s cs bags w) (hv : w.At v n)
    (run : Runner ε τ σ) (c : Context ε) :
    World.instantiate run v c w = some (.ok (some ⟨n.index⟩), w) := by
  have hfind : w.engine.variants.find? v (c.project (p.semantics (σ := σ).sensitivity v)) =
      some ⟨n.index⟩ := h.plain.find? hv
  simp only [World.instantiate, h.semantics, hfind]

/-- An entity that has none gets one, and is discovered at once. -/
theorem Stage.instantiate_of_not_mem (h : Stage p roots s cs bags w) (hv : v ∉ w.entities)
    {id : VariantId} {w₁ w₂ : World ε τ σ} (hcreate : w.create v .empty .value = (id, w₁))
    (hrun : (p.discover id).runWith (World.run depth) w₁ = some (.ok (), w₂)) (c : Context ε) :
    World.instantiate (World.run (depth + 1)) v c w = some (.ok (some id), w₂) := by
  have hfind : w.engine.variants.find? v (c.project (p.semantics (σ := σ).sensitivity v)) = none :=
    h.plain.find?_eq_none.mpr hv
  have hstable : w.engine.isStable = false := by
    unfold Engine.isStable
    rw [h.unstable]
    rfl
  have hcreate : w.create v (c.project (p.semantics (σ := σ).sensitivity v))
      (p.semantics (σ := σ).shape v) = (id, w₁) := hcreate
  have hrun : World.run (depth + 1) (p.semantics.discover id) w₁ = some (.ok (), w₂) := hrun
  simp only [World.instantiate, h.semantics, hfind, hstable, Bool.false_eq_true, if_false, hcreate,
    hrun]

/-- **Every entity is found**, if the depth is not less than the number of missing entities. -/
theorem finds (p : Network ε τ) (roots : List ε) (s : σ) (bags : List (Bag WorkItem))
    (depth : Nat) : p.Finds roots s bags depth := by
  induction depth with
  | zero =>
    intro cs w v c h hr hroom
    have hv : v ∈ w.entities := by
      refine Classical.byContradiction fun hv => ?_
      have := h.length_lt hv hr
      omega
    obtain ⟨i, hi⟩ := List.mem_iff_getElem?.mp hv
    exact ⟨cs, w, ⟨i⟩, h.instantiate_of_mem hi _ c, .refl h, .refl _, hi⟩
  | succ depth ih =>
    intro cs w v c h hr hroom
    by_cases hv : v ∈ w.entities
    · obtain ⟨i, hi⟩ := List.mem_iff_getElem?.mp hv
      exact ⟨cs, w, ⟨i⟩, h.instantiate_of_mem hi _ c, .refl h, .refl _, hi⟩
    · obtain ⟨label, w₁, hcreate, hstage₁, hleads₁, hentities, hnew⟩ := h.create hv hr
      have hat : w₁.At v ⟨w.entities.length⟩ := by
        unfold World.At
        rw [hentities, List.getElem?_append_right (Nat.le_refl _), Nat.sub_self]
        rfl
      have hroom₁ : (p.candidates roots).length ≤ w₁.entities.length + depth := by
        rw [hentities, List.length_append, List.length_singleton]
        omega
      obtain ⟨cs₂, w₂, hrun, hex₂, hcovered⟩ := discover_spec ih hstage₁ hat hnew hroom₁
      have hleads := hleads₁.trans hex₂.toLeads
      refine ⟨cs₂, w₂, ⟨w.entities.length⟩, ?_, ⟨hleads, hex₂.stage, fun {u m} hu hm => ?_⟩, ?_,
        hex₂.at hat⟩
      · exact h.instantiate_of_not_mem hv hcreate hrun c
      · by_cases hlast : m.index = w.entities.length
        · -- the only entity with that number is the new one
          have hm : m = ⟨w.entities.length⟩ := NodeId.index_inj.mp hlast
          subst hm
          have e : v = u := Option.some.inj ((hex₂.at hat).symm.trans hu)
          exact e ▸ hcovered
        · refine hex₂.covered hu ?_
          rw [hentities, List.length_append, List.length_singleton]
          omega
      · refine hleads.grows.advances (x := .node ⟨w.entities.length⟩) ?_ fun hold => ?_
        · exact hex₂.stage.contains (hex₂.at hat)
        · exact Nat.lt_irrefl _ ((h.nodes _).mp hold)

end Discovery

end ValueFlow.Network
