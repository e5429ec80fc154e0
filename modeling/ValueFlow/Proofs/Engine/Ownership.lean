import ValueFlow.Proofs.Engine.Deeds

/-!
# Whose node it is

The nodes of a variant are made before the variant is registered, and they are labelled with the
handle that it is going to get. Still every label is right: a node that is labelled with a part of a
variant is the node that the variant has for this part, and the other way round. So no two variants
share a node, and each node that is not auxiliary is one part of one variant. Nodes and variants are
counted when they are made.

* `Layout.slots`, `World.Furnished`: the parts of a variant and the nodes made for them;
* `Flow.Does.labels`: which labels there are after an operation;
* `World.Owned`, `lasting_owned`, `Story.nodes_owned`: what holds of nodes and variants, whatever an
  engine goes through.
-/

namespace ValueFlow

variable {ε τ σ : Type} [Ordered τ]

/-! ## 1. The parts of a variant -/

namespace Layout

/-- **The node that a variant has for a role.** -/
def slot? (l : Layout) : Role → Option NodeId
  | .value => match l with
    | .method .. => none
    | _ => l.node?
  | .receiver => l.receiver?
  | .parameter i => l.parameter? i
  | .result => l.result?
  | .thrown => l.thrown?
  | .auxiliary => none

/-- All roles with their nodes, in the order of their creation. -/
def slots : Layout → List (Role × NodeId)
  | .value n => [(.value, n)]
  | .method receiver ps result thrown =>
    receiver.toList.map (.receiver, ·) ++ ps.mapIdx (fun i p => (.parameter i, p)) ++
      result.toList.map (.result, ·) ++ [(.thrown, thrown)]
  | .invocation n thrown => [(.value, n), (.thrown, thrown)]

theorem mem_slots {l : Layout} {role : Role} {n : NodeId} :
    (role, n) ∈ l.slots ↔ l.slot? role = some n := by
  cases l with
  | value m =>
    cases role <;> simp [slots, slot?, node?, receiver?, parameter?, result?, thrown?, eq_comm]
  | invocation m thrown =>
    cases role <;> simp [slots, slot?, node?, receiver?, parameter?, result?, thrown?, eq_comm]
  | method receiver ps result thrown =>
    cases role with
    | parameter i => simp [slots, slot?, parameter?, List.mem_mapIdx, List.getElem?_eq_some_iff]
    | _ => simp [slots, slot?, receiver?, result?, thrown?, List.mem_mapIdx, eq_comm]

theorem map_snd_slots (l : Layout) : l.slots.map Prod.snd = l.nodes := by
  cases l with
  | value | invocation => rfl
  | method receiver ps result thrown =>
    have hps : (ps.mapIdx fun i p => (Role.parameter i, p)).map Prod.snd = ps :=
      List.ext_getElem (by simp) fun i h _ => by simp
    cases receiver <;> cases result <;> simp [slots, nodes, hps]

theorem mem_nodes {l : Layout} {n : NodeId} : n ∈ l.nodes ↔ ∃ role, l.slot? role = some n := by
  simp [← map_snd_slots, mem_slots]

end Layout

theorem VariantTable.get?_push {t : VariantTable ε} {pool : IndexPool ε} {index : Index ε}
    {v v' : Variant ε} (h : index = v'.index) {id : VariantId} :
    (t.push pool index v' h).get? id = some v ↔
      t.get? id = some v ∨ id = t.nextId ∧ v = v' := by
  unfold get? nextId push
  dsimp only
  rw [Array.getElem?_push]
  by_cases hid : id.index = t.variants.size
  · have heq : id = ⟨t.variants.size⟩ := by rw [← hid]
    simp [heq, eq_comm]
  · have hne : id ≠ ⟨t.variants.size⟩ := fun heq => hid (congrArg VariantId.index heq)
    simp [hid, hne]

/-! ## 2. Labels -/

namespace Graph

variable {φ : Type} {g g' : Graph φ τ} {n : NodeId}

/-- The label of a node. -/
def label? (g : Graph φ τ) (n : NodeId) : Option Label := (g.node? n).bind Node.label

/-- The labels of all nodes, in their order. -/
def labels (g : Graph φ τ) : List (Option Label) := g.nodes.toList.map Node.label

theorem length_labels : g.labels.length = g.size := by
  simp [labels, size]

theorem getElem?_labels {i : Nat} :
    g.labels[i]? = g.readAt ⟨i⟩ (fun v => some v.label) none := by
  unfold labels readAt node?
  cases hv : g.nodes[i]? <;> simp [hv]

theorem label?_eq_some {label : Label} :
    g.label? n = some label ↔ g.labels[n.index]? = some (some label) := by
  rw [getElem?_labels]
  unfold label? readAt
  cases g.node? n <;> simp

theorem labels_congr
    (h : ∀ n, g'.readAt n (fun v => some v.label) none = g.readAt n (fun v => some v.label) none) :
    g'.labels = g.labels := by
  refine List.ext_getElem? fun i => ?_
  rw [getElem?_labels, getElem?_labels, h]

theorem labels_modify {f : Node φ τ → Node φ τ} (hf : ∀ v, (f v).label = v.label) :
    (g.modify n f).labels = g.labels :=
  labels_congr fun _ => readAt_modify fun v => congrArg some (hf v)

theorem labels_addNode (label : Option Label) :
    (g.addNode label).2.labels = g.labels ++ [label] := by
  simp [labels, addNode]

theorem labels_addNodes (g : Graph φ τ) (labels : List (Option Label)) :
    (g.addNodes labels).labels = g.labels ++ labels := by
  induction labels generalizing g with
  | nil => exact (List.append_nil _).symm
  | cons label labels ih =>
    have hrest := ih (g.addNode label).2
    rw [labels_addNode, List.append_assoc] at hrest
    exact hrest

end Graph

namespace Flow

open ValueFlow.Graph

variable {φ : Type} {sieve : φ → TokenSet τ → TokenSet τ} {f f' : Flow φ τ} {op : Operation φ τ}

theorem labels_fuse (cycle : List NodeId) : (f.fuse cycle).graph.labels = f.graph.labels := by
  rcases length_lt_or_two_le cycle with hle | htwo
  · rw [fuse_of_length_le hle]
  · rw [graph_fuse htwo]
    exact labels_congr fun _ => readAt_joined fun _ => rfl

theorem labels_condense (hg : f.graph.Grouped) (roots : List NodeId) :
    (f.condense roots).2.graph.labels = f.graph.labels :=
  condense_induction (P := fun f' => f'.graph.labels = f.graph.labels) hg roots
    (fun _ hu => labels_congr fun _ => readAt_of_unmarked hu fun _ => rfl)
    fun _ cycle _ ih => (labels_fuse cycle).trans ih

theorem labels_deliver (n : NodeId) (tokens : TokenSet τ) :
    (f.deliver sieve n tokens).2.graph.labels = f.graph.labels :=
  labels_congr fun _ => readAt_deliver fun _ _ => rfl

/-- What an operation makes of the labels. -/
def Operation.relabel : Operation φ τ → List (Option Label) → List (Option Label)
  | .addNode label, labels => labels ++ [label]
  | .clear, _ => []
  | _, labels => labels

/-- **Labels stay**, whatever is done to a flow; new ones come last. -/
theorem Does.labels (h : Does sieve f op f') (hg : f.graph.Grouped) :
    f'.graph.labels = op.relabel f.graph.labels := by
  cases h with
  | addNode label => exact labels_addNode label
  | link => exact labels_congr fun _ => readAt_link fun _ _ => rfl
  | deliver tokens => exact labels_deliver _ tokens
  | setFilter _ hok =>
    obtain ⟨-, rfl⟩ := setFilter_eq_ok hok
    exact labels_modify fun _ => rfl
  | subscribe => exact labels_modify fun _ => rfl
  | condense roots => exact labels_condense hg roots
  | execute item =>
    exact execute_cases (P := fun f' => f'.graph.labels = f.graph.labels) item (fun _ => rfl)
      fun n tokens _ _ => labels_deliver n tokens
  | clear | offer | refuse | schedule | giveBack | beginRound | putBack => rfl

end Flow

/-! ## 3. The nodes of a new variant -/

namespace World

variable {w w₁ w₂ : World ε τ σ} {owner : VariantId} {slots slots' : List (Role × NodeId)}

/-- **Nodes were made for the roles of a variant**, one after the other, and counted. -/
structure Furnished (w : World ε τ σ) (owner : VariantId) (slots : List (Role × NodeId))
    (w' : World ε τ σ) : Prop where
  graph : w'.flow.graph = w.flow.graph.addNodes (slots.map fun s => some (.of owner s.1))
  agenda : w'.flow.agenda = w.flow.agenda
  handles : ∀ {i : Nat} {s : Role × NodeId}, slots[i]? = some s →
    s.2 = ⟨w.flow.graph.size + i⟩
  stats : w'.engine.stats =
    { w.engine.stats with nodes := w.engine.stats.nodes + slots.length }

namespace Furnished

theorem labels (h : w.Furnished owner slots w₁) : w₁.flow.graph.labels =
    w.flow.graph.labels ++ slots.map fun s => some (.of owner s.1) := by
  rw [h.graph, Graph.labels_addNodes]

theorem size (h : w.Furnished owner slots w₁) :
    w₁.flow.graph.size = w.flow.graph.size + slots.length := by
  rw [← Graph.length_labels, ← Graph.length_labels, h.labels]
  simp

theorem nil (w : World ε τ σ) (owner : VariantId) : w.Furnished owner [] w :=
  ⟨rfl, rfl, nofun, rfl⟩

theorem trans (h : w.Furnished owner slots w₁) (h' : w₁.Furnished owner slots' w₂) :
    w.Furnished owner (slots ++ slots') w₂ where
  graph := by
    rw [h'.graph, h.graph, List.map_append, Graph.addNodes_append]
  agenda := h'.agenda.trans h.agenda
  handles {i s} hs := by
    rw [List.getElem?_append] at hs
    split at hs
    · exact h.handles hs
    · rw [h'.handles hs, h.size]
      congr 1
      omega
  stats := by rw [h'.stats, h.stats, List.length_append, Nat.add_assoc]

theorem one (w : World ε τ σ) (owner : VariantId) (role : Role) :
    w.Furnished owner [(role, (w.addLabelled (.of owner role)).1)]
      (w.addLabelled (.of owner role)).2 where
  graph := rfl
  agenda := rfl
  handles {i s} hs := by
    cases i with
    | zero =>
      cases hs
      rfl
    | succ i => simp at hs
  stats := rfl

end Furnished

theorem furnished_addNodeIf (w : World ε τ σ) (owner : VariantId) (wanted : Bool) (role : Role) :
    w.Furnished owner ((w.addNodeIf wanted (.of owner role)).1.toList.map (role, ·))
      (w.addNodeIf wanted (.of owner role)).2 := by
  cases wanted with
  | true => exact .one w owner role
  | false => exact .nil w owner

theorem furnished_addNodes (owner : VariantId) (roles : List Role) (w : World ε τ σ) :
    (w.addNodes owner roles).1.length = roles.length ∧
      w.Furnished owner (roles.zip (w.addNodes owner roles).1) (w.addNodes owner roles).2 := by
  induction roles generalizing w with
  | nil => exact ⟨rfl, .nil w owner⟩
  | cons role roles ih =>
    obtain ⟨hlength, hrest⟩ := ih (w.addLabelled (.of owner role)).2
    exact ⟨congrArg (· + 1) hlength, (Furnished.one w owner role).trans hrest⟩

theorem zip_parameters {count : Nat} {ps : List NodeId} (h : ps.length = count) :
    ((List.range count).map Role.parameter).zip ps = ps.mapIdx fun i p => (.parameter i, p) := by
  refine List.ext_getElem (by simp [h]) fun i _ _ => ?_
  simp

theorem furnished_addLayout (w : World ε τ σ) (owner : VariantId) (shape : Shape) :
    w.Furnished owner (w.addLayout owner shape).1.slots (w.addLayout owner shape).2 := by
  cases shape with
  | value => exact .one w owner .value
  | invocation => exact (Furnished.one w owner .value).trans (.one _ owner .thrown)
  | method count hasReceiver hasResult =>
    have hreceiver := w.furnished_addNodeIf owner hasReceiver .receiver
    obtain ⟨hlength, hparameters⟩ :=
      furnished_addNodes owner ((List.range count).map Role.parameter)
        (w.addNodeIf hasReceiver (.of owner .receiver)).2
    rw [List.length_map, List.length_range] at hlength
    have hzip : ((List.range count).map Role.parameter).zip (addNodes _ owner _).1 = _ :=
      zip_parameters hlength
    rw [hzip] at hparameters
    exact ((hreceiver.trans hparameters).trans
      (furnished_addNodeIf _ owner hasResult .result)).trans (.one _ owner .thrown)

/-- **A new variant** comes last in the table, and nodes were made for its parts. -/
theorem furnished_create [DecidableEq ε] {entity : ε} {c : Context ε}
    (hfind : w.engine.variants.find? entity c = none) (shape : Shape)
    {created : VariantId × World ε τ σ} (hcreate : w.create entity c shape = created) :
    ∃ w₁ : World ε τ σ, ∃ layout : Layout,
      w.Furnished w.engine.variants.nextId layout.slots w₁ ∧
      created.1 = w.engine.variants.nextId ∧ created.2 = { w₁ with engine :=
        { w₁.engine with
          variants := w.engine.variants.push (w.engine.variants.pool.get entity c).2 ⟨entity, c⟩
            ⟨entity, c, layout⟩ rfl
          stats := { w₁.engine.stats with variants := w.engine.stats.variants + 1 } } } := by
  have hbuilt := w.built_addLayout w.engine.variants.nextId shape
  have hfurnished := w.furnished_addLayout w.engine.variants.nextId shape
  unfold create at hcreate
  dsimp only at hcreate
  generalize w.addLayout w.engine.variants.nextId shape = added at hbuilt hfurnished hcreate
  obtain ⟨layout, w₁⟩ := added
  refine ⟨w₁, layout, hfurnished, ?_⟩
  have hvariants : w₁.engine.variants = w.engine.variants := by
    obtain ⟨labels⟩ := hbuilt
    rfl
  dsimp only at hcreate
  rw [hvariants, hfurnished.stats] at hcreate
  simp only [VariantTable.register_of_none hfind] at hcreate
  subst hcreate
  refine ⟨rfl, ?_⟩
  rw [hfurnished.stats]

/-! ## 4. Whose node it is -/

/-- **Every label is right**, and what there is was counted. -/
structure Owned (w : World ε τ σ) : Prop where
  grouped : w.flow.graph.Grouped
  nodes : w.engine.stats.nodes = w.flow.graph.size
  variants : w.engine.stats.variants = w.engine.variants.size
  owner : ∀ {i label}, w.flow.graph.labels[i]? = some label → label = some .auxiliary ∨
    ∃ id role v, label = some (.of id role) ∧ w.engine.variants.get? id = some v ∧
      (role, ⟨i⟩) ∈ v.layout.slots
  slot : ∀ {id v role n}, w.engine.variants.get? id = some v → (role, n) ∈ v.layout.slots →
    w.flow.graph.labels[n.index]? = some (some (.of id role))

/-- What is counted of nodes and variants. -/
def counts (w : World ε τ σ) : Nat × Nat := (w.engine.stats.nodes, w.engine.stats.variants)

namespace Owned

variable {w' : World ε τ σ}

/-- There are more nodes than before, with labels that are right. -/
theorem extend (h : w.Owned) (hgrouped : w'.flow.graph.Grouped) {labels : List (Option Label)}
    (hlabels : w'.flow.graph.labels = w.flow.graph.labels ++ labels)
    (hnodes : w'.engine.stats.nodes = w.engine.stats.nodes + labels.length)
    (hvariants : w'.engine.stats.variants = w'.engine.variants.size)
    (hold : ∀ {id v}, w.engine.variants.get? id = some v → w'.engine.variants.get? id = some v)
    (howner : ∀ {j label}, labels[j]? = some label → label = some .auxiliary ∨
      ∃ id role v, label = some (.of id role) ∧ w'.engine.variants.get? id = some v ∧
        (role, ⟨w.flow.graph.size + j⟩) ∈ v.layout.slots)
    (hslot : ∀ {id v role n}, w'.engine.variants.get? id = some v → (role, n) ∈ v.layout.slots →
      w.engine.variants.get? id = some v ∨
        w'.flow.graph.labels[n.index]? = some (some (.of id role))) : w'.Owned where
  grouped := hgrouped
  nodes := by
    rw [hnodes, h.nodes, ← Graph.length_labels, ← Graph.length_labels, hlabels,
      List.length_append]
  variants := hvariants
  owner {i label} hlabel := by
    rw [hlabels, List.getElem?_append] at hlabel
    split at hlabel
    · rcases h.owner hlabel with haux | ⟨id, role, v, hof, hv, hmem⟩
      · exact .inl haux
      · exact .inr ⟨id, role, v, hof, hold hv, hmem⟩
    · rename_i hle
      have hi : w.flow.graph.size + (i - w.flow.graph.labels.length) = i := by
        rw [Graph.length_labels] at hle ⊢
        omega
      exact hi ▸ howner hlabel
  slot {id v role n} hv hmem := by
    rcases hslot hv hmem with hv | hlabel
    · have hlabel := h.slot hv hmem
      rw [hlabels, List.getElem?_append_left (List.getElem?_eq_some_iff.mp hlabel).1]
      exact hlabel
    · exact hlabel

/-- Only the labels, the variants and what is counted of both matter. -/
theorem congr (h : w.Owned) (hgrouped : w'.flow.graph.Grouped)
    (hlabels : w'.flow.graph.labels = w.flow.graph.labels) (hcounts : w'.counts = w.counts)
    (hvariants : w'.engine.variants = w.engine.variants) : w'.Owned := by
  refine h.extend hgrouped (hlabels.trans (List.append_nil _).symm) (congrArg Prod.fst hcounts) ?_
    (fun hv => hvariants ▸ hv) nofun fun hv _ => .inl (hvariants ▸ hv)
  rw [hvariants, ← h.variants]
  exact congrArg Prod.snd hcounts

theorem empty (hflow : w.flow.graph = .empty) (hcounts : w.counts = (0, 0))
    (hvariants : w.engine.variants.variants = #[]) : w.Owned := by
  have hnone : ∀ id, w.engine.variants.get? id = none := by simp [VariantTable.get?, hvariants]
  refine ⟨hflow ▸ Graph.wellFormed_empty.grouped, ?_, ?_, ?_, ?_⟩
  · rw [hflow]
    exact congrArg Prod.fst hcounts
  · rw [VariantTable.size, hvariants]
    exact congrArg Prod.snd hcounts
  · intro i label hlabel
    simp [hflow, Graph.labels, Graph.empty] at hlabel
  · intro id v role n hv
    simp [hnone] at hv

theorem addNode (h : w.Owned) : w.addNode.2.Owned := by
  refine h.extend (h.grouped.addNode _) (Graph.labels_addNode _) rfl h.variants id
    (fun {j label} hlabel => .inl ?_) fun hv _ => .inl hv
  cases j with
  | zero => simpa using hlabel.symm
  | succ j => simp at hlabel

theorem create [DecidableEq ε] (h : w.Owned) {entity : ε} {c : Context ε}
    (hfind : w.engine.variants.find? entity c = none) {shape : Shape}
    {created : VariantId × World ε τ σ} (hcreate : w.create entity c shape = created) :
    created.2.Owned := by
  obtain ⟨w₁, layout, hfurnished, -, heq⟩ := furnished_create hfind shape hcreate
  rw [heq]
  have hlabels := hfurnished.labels
  refine h.extend (hfurnished.graph ▸ h.grouped.addNodes _) hlabels ?_ ?_
    (fun hv => (VariantTable.get?_push rfl).mpr (.inl hv)) (fun {j label} hlabel => .inr ?_)
    fun {id v role n} hv hmem => ?_
  · rw [List.length_map]
    exact congrArg Stats.nodes hfurnished.stats
  · show w.engine.stats.variants + 1 = (w.engine.variants.variants.push _).size
    rw [h.variants, Array.size_push]
    rfl
  · -- the nodes were made one after the other, each for its role
    rw [List.getElem?_map] at hlabel
    obtain ⟨⟨role, n⟩, hs, rfl⟩ := Option.map_eq_some_iff.mp hlabel
    refine ⟨_, role, _, rfl, (VariantTable.get?_push rfl).mpr (.inr ⟨rfl, rfl⟩), ?_⟩
    rw [← hfurnished.handles hs]
    exact List.mem_of_getElem? hs
  · rcases (VariantTable.get?_push rfl).mp hv with hv | ⟨rfl, rfl⟩
    · exact .inl hv
    · obtain ⟨j, hs⟩ := List.mem_iff_getElem?.mp hmem
      have hn := hfurnished.handles hs
      dsimp only at hn
      subst hn
      refine .inr ?_
      show w₁.flow.graph.labels[w.flow.graph.size + j]? = _
      rw [hlabels, List.getElem?_append_right, Graph.length_labels]
      · simp [hs]
      · rw [Graph.length_labels]
        omega

end Owned

end World

/-! ## 5. Requests -/

namespace Request

variable {q : Request ε τ σ}

/-- Only a new node and a reset change what is counted. -/
theorem counts_perform (hadd : q ≠ .addNode) (hreset : q ≠ .reset) (w : World ε τ σ) :
    (q.perform w).counts = w.counts := by
  by_cases hcondense : q = .condense
  · subst hcondense
    rfl
  by_cases hdue : q = .condenseIfDue
  · subst hdue
    rcases w.condenseIfDue_snd with h | h <;> exact (congrArg World.counts h :)
  obtain ⟨_, _, _, _, _, _, h⟩ := perform_eq hadd hcondense hdue hreset w
  rw [h]
  rfl

/-- So it is with the labels. -/
theorem labels_perform (hadd : q ≠ .addNode) (hreset : q ≠ .reset) {w : World ε τ σ}
    (hg : w.flow.graph.Grouped) :
    (q.perform w).flow.graph.Grouped ∧ (q.perform w).flow.graph.labels = w.flow.graph.labels := by
  rcases q.flow_perform w with hflow | ⟨op, hasks, hdoes⟩
  · rw [hflow]
    exact ⟨hg, rfl⟩
  · refine ⟨hdoes.grouped hg, (hdoes.labels hg).trans ?_⟩
    cases hasks with
    | addNode => exact absurd rfl hadd
    | reset => exact absurd rfl hreset
    | _ => rfl

end Request

theorem World.Owned.ask {w : World ε τ σ} (h : w.Owned) (q : Request ε τ σ) :
    (q.perform w).Owned := by
  by_cases hadd : q = .addNode
  · subst hadd
    exact h.addNode
  by_cases hreset : q = .reset
  · subst hreset
    exact .empty rfl rfl rfl
  obtain ⟨hgrouped, hlabels⟩ := Request.labels_perform hadd hreset h.grouped
  exact h.congr hgrouped hlabels (Request.counts_perform hadd hreset w)
    (Request.frame hreset w).variants

/-! ## 6. Stories -/

namespace World.Owned

variable {w : World ε τ σ} {id id' : VariantId} {v v' : Variant ε} {role role' : Role} {n : NodeId}

theorem label?_cases (h : w.Owned) (hn : w.flow.graph.contains n) :
    w.flow.graph.label? n = some .auxiliary ∨ ∃ id role v,
      w.flow.graph.label? n = some (.of id role) ∧ w.engine.variants.get? id = some v ∧
        v.layout.slot? role = some n := by
  have hlt : n.index < w.flow.graph.labels.length := by
    rw [Graph.length_labels]
    exact Graph.contains_iff.mp hn
  have hlabel := List.getElem?_eq_getElem hlt
  rcases h.owner hlabel with haux | ⟨id, role, v, hof, hv, hmem⟩
  · exact .inl (Graph.label?_eq_some.mpr (haux ▸ hlabel))
  · exact .inr ⟨id, role, v, Graph.label?_eq_some.mpr (hof ▸ hlabel), hv, Layout.mem_slots.mp hmem⟩

theorem label?_slot (h : w.Owned) (hv : w.engine.variants.get? id = some v)
    (hslot : v.layout.slot? role = some n) : w.flow.graph.label? n = some (.of id role) :=
  Graph.label?_eq_some.mpr (h.slot hv (Layout.mem_slots.mpr hslot))

theorem contains_of_slot (h : w.Owned) (hv : w.engine.variants.get? id = some v)
    (hslot : v.layout.slot? role = some n) : w.flow.graph.contains n := by
  rw [Graph.contains_iff, ← Graph.length_labels]
  exact (List.getElem?_eq_some_iff.mp (h.slot hv (Layout.mem_slots.mpr hslot))).1

/-- A node is one part of one variant. -/
theorem slot_unique (h : w.Owned) (hv : w.engine.variants.get? id = some v)
    (hslot : v.layout.slot? role = some n) (hv' : w.engine.variants.get? id' = some v')
    (hslot' : v'.layout.slot? role' = some n) : id = id' ∧ role = role' := by
  have hlabel := (h.label?_slot hv hslot).symm.trans (h.label?_slot hv' hslot')
  simpa [Label.of] using hlabel

end World.Owned

theorem World.Owned.execute {w : World ε τ σ} (h : w.Owned) {item : WorkItem} :
    (w.setFlow (w.flow.execute w.sieve item).2).Owned :=
  h.congr ((Flow.Does.execute item).grouped h.grouped) ((Flow.Does.execute item).labels h.grouped)
    rfl rfl

variable [DecidableEq ε]

/-- **Every label stays right.** -/
theorem lasting_owned (fits : Semantics ε τ σ → Prop) :
    Lasting fits (fun _ m => m.world.Owned) where
  step h hstep := by
    cases hstep with
    | ask q => exact h.ask q
    | discover _ hfind _ hcreate => exact h.create hfind hcreate
    | send | hear | lose => exact h.execute
    | _ => exact h.congr h.grouped rfl rfl rfl
  new _ _ _ := .empty rfl rfl rfl
  install h _ := h.congr h.grouped rfl rfl rfl
  equip _ _ _ _ _ h := h.congr h.grouped rfl rfl rfl
  restart _ := .empty rfl rfl rfl
  outside h := h

/-- **Whose node it is.** Whatever an engine goes through, the nodes and the variants that it has
are those that were counted. Every node is auxiliary, or it is labelled with a role of a variant and
is the node that the variant has for this role; and every node of a variant is labelled so. So no
two variants share a node, and each node that is not auxiliary fills one role of one variant. -/
theorem Story.nodes_owned {fits : Semantics ε τ σ → Prop} {allowed : Deed ε τ σ → Prop}
    {log : List (Entry ε τ σ)} {w : World ε τ σ} (h : Story fits allowed log w) :
    w.engine.stats.nodes = w.flow.graph.size ∧
    w.engine.stats.variants = w.engine.variants.size ∧
    (∀ n, w.flow.graph.contains n → w.flow.graph.label? n = some .auxiliary ∨
      ∃ id role v, w.flow.graph.label? n = some (.of id role) ∧
        w.engine.variants.get? id = some v ∧ v.layout.slot? role = some n) ∧
    (∀ id v, w.engine.variants.get? id = some v → ∀ n ∈ v.layout.nodes,
      w.flow.graph.contains n ∧ ∃ role, w.flow.graph.label? n = some (.of id role) ∧
        v.layout.slot? role = some n) ∧
    (∀ id v id' v', w.engine.variants.get? id = some v → w.engine.variants.get? id' = some v' →
      id ≠ id' → v.layout.nodes.Disjoint v'.layout.nodes) ∧
    (∀ n, w.flow.graph.contains n → w.flow.graph.label? n ≠ some .auxiliary →
      ∃! part : VariantId × Role, ∃ v, w.engine.variants.get? part.1 = some v ∧
        v.layout.slot? part.2 = some n) := by
  have howned := h.holds (lasting_owned fits)
  refine ⟨howned.nodes, howned.variants, fun n hn => howned.label?_cases hn, ?_, ?_, ?_⟩
  · intro id v hv n hn
    obtain ⟨role, hslot⟩ := Layout.mem_nodes.mp hn
    exact ⟨howned.contains_of_slot hv hslot, role, howned.label?_slot hv hslot, hslot⟩
  · intro id v id' v' hv hv' hne n hn hn'
    obtain ⟨role, hslot⟩ := Layout.mem_nodes.mp hn
    obtain ⟨role', hslot'⟩ := Layout.mem_nodes.mp hn'
    exact hne (howned.slot_unique hv hslot hv' hslot').1
  · intro n hn hlabel
    rcases howned.label?_cases hn with haux | ⟨id, role, v, -, hv, hslot⟩
    · exact absurd haux hlabel
    · refine ⟨(id, role), ⟨v, hv, hslot⟩, ?_⟩
      rintro ⟨id', role'⟩ ⟨v', hv', hslot'⟩
      obtain ⟨rfl, rfl⟩ := howned.slot_unique hv' hslot' hv hslot
      rfl

/-- A method with a receiver, two parameters and a result. Its discovery adds a node of its own,
asks for a call, and links all of them to a circle. -/
def methodAndCall : Semantics Nat Nat Unit where
  shape entity := if entity = 0 then .method 2 true true else .invocation
  discover id :=
    if id = ⟨0⟩ then
      .addNode fun n => .instantiate 1 .empty fun _ => .link n ⟨1⟩ fun _ => .link ⟨1⟩ n fun _ =>
        .condense fun _ => .fail (.usage (.unknownNode n))
    else .done

def methodWorld : World Nat Nat Unit where
  engine := { Engine.new default with semantics := some methodAndCall }
  shared := ()

def enterMethod : Routine Nat Nat Unit := .instantiate 0 .empty fun _ => .done

theorem nodes_owned_methodAndCall :
    ∃ w v v', Story (fun _ => True) (fun _ => True) (World.deeds 3 enterMethod methodWorld) w ∧
      w.engine.variants.get? ⟨0⟩ = some v ∧ w.engine.variants.get? ⟨1⟩ = some v' ∧
      v.layout.nodes = [⟨0⟩, ⟨1⟩, ⟨2⟩, ⟨3⟩, ⟨4⟩] ∧ v'.layout.nodes = [⟨6⟩, ⟨7⟩] ∧
      w.flow.graph.representative ⟨5⟩ = ⟨1⟩ ∧ w.engine.stats.nodes = w.flow.graph.size ∧
      v.layout.nodes.Disjoint v'.layout.nodes ∧
      ∃ role, w.flow.graph.label? ⟨2⟩ = some (.of ⟨0⟩ role) ∧ v.layout.slot? role = some ⟨2⟩ := by
  have hfacts : (World.run 3 enterMethod methodWorld).map (fun done =>
      (done.2.engine.variants.get? ⟨0⟩, done.2.engine.variants.get? ⟨1⟩,
        done.2.flow.graph.representative ⟨5⟩)) =
      some (some ⟨0, .empty, .method (some ⟨0⟩) [⟨1⟩, ⟨2⟩] (some ⟨3⟩) ⟨4⟩⟩,
        some ⟨1, .empty, .invocation ⟨6⟩ ⟨7⟩⟩, ⟨1⟩) := by decide +kernel
  obtain ⟨⟨_, w⟩, hrun, heq⟩ := Option.map_eq_some_iff.mp hfacts
  simp only [Prod.mk.injEq] at heq
  obtain ⟨hv, hv', hrep⟩ := heq
  have hinstalled : Story (fun _ => True) (fun _ => True) [] methodWorld :=
    .install methodAndCall (.new default () true) trivial
  have hstory := hinstalled.call (fun _ _ => trivial) hrun
  rw [List.nil_append] at hstory
  obtain ⟨hnodes, -, -, hlabels, hdisjoint, -⟩ := hstory.nodes_owned
  exact ⟨w, _, _, hstory, hv, hv', rfl, rfl, hrep, hnodes,
    hdisjoint ⟨0⟩ _ ⟨1⟩ _ hv hv' (by decide), (hlabels ⟨0⟩ _ hv ⟨2⟩ (by decide)).2⟩

end ValueFlow
