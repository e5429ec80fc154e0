import ValueFlow.Proofs.Engine.Requests

/-!
# What requests leave alone

An engine is set up from outside: its settings, the language and the token manager it works with,
the environment, the order of its agenda. No collaborator can change any of it.

* `World.create_eq`, `World.find?_create`: what a new variant changes, and that it is found;
* `Request.frame`, `Request.perform_eq`: what a request changes, and what it leaves alone.
-/

namespace ValueFlow

variable {ε τ σ : Type} [Ordered τ]

/-! ## 1. New variants -/

namespace Graph

variable {φ : Type}

/-- Nodes with these labels, one after the other. -/
def addNodes (g : Graph φ τ) (labels : List (Option Label)) : Graph φ τ :=
  labels.foldl (fun g label => (g.addNode label).2) g

theorem addNodes_append (g : Graph φ τ) (labels labels' : List (Option Label)) :
    g.addNodes (labels ++ labels') = (g.addNodes labels).addNodes labels' := List.foldl_append

theorem Grouped.addNodes {g : Graph φ τ} (hg : g.Grouped) (labels : List (Option Label)) :
    (g.addNodes labels).Grouped :=
  List.foldlRecOn labels _ hg fun _ hg label _ => hg.addNode label

end Graph

namespace World

/-- Only nodes were added, and counted. -/
inductive Built (w : World ε τ σ) : World ε τ σ → Prop where
  | mk (labels : List (Option Label)) : Built w { w with engine :=
      { w.engine with
        flow := { w.engine.flow with graph := w.flow.graph.addNodes labels }
        stats := { w.engine.stats with nodes := w.engine.stats.nodes + labels.length } } }

variable {w w₁ w₂ : World ε τ σ}

theorem Built.refl (w : World ε τ σ) : w.Built w := .mk []

theorem Built.trans (h : w.Built w₁) (h' : w₁.Built w₂) : w.Built w₂ := by
  obtain ⟨labels⟩ := h
  obtain ⟨labels'⟩ := h'
  have hboth := Built.mk (w := w) (labels ++ labels')
  rw [Graph.addNodes_append, List.length_append, ← Nat.add_assoc] at hboth
  exact hboth

theorem built_addLabelled (w : World ε τ σ) (label : Label) : w.Built (w.addLabelled label).2 :=
  .mk [some label]

theorem built_addNodeIf (w : World ε τ σ) (wanted : Bool) (label : Label) :
    w.Built (w.addNodeIf wanted label).2 := by
  cases wanted with
  | true => exact w.built_addLabelled label
  | false => exact .refl w

theorem built_addNodes (owner : VariantId) (roles : List Role) (w : World ε τ σ) :
    w.Built (w.addNodes owner roles).2 := by
  induction roles generalizing w with
  | nil => exact .refl w
  | cons role roles ih => exact (w.built_addLabelled (.of owner role)).trans (ih _)

theorem built_addLayout (w : World ε τ σ) (owner : VariantId) (shape : Shape) :
    w.Built (w.addLayout owner shape).2 := by
  cases shape with
  | value => exact w.built_addLabelled _
  | method count hasReceiver hasResult =>
    exact (((w.built_addNodeIf hasReceiver (.of owner .receiver)).trans
      (built_addNodes owner _ _)).trans (built_addNodeIf _ hasResult (.of owner .result))).trans
        (built_addLabelled _ (.of owner .thrown))
  | invocation => exact (w.built_addLabelled _).trans (built_addLabelled _ _)

/-- **A new variant** comes last in the table. Apart from that only its nodes are new. -/
theorem create_eq [DecidableEq ε] {entity : ε} {c : Context ε} (shape : Shape)
    (hfind : w.engine.variants.find? entity c = none) :
    ∃ labels layout, w.create entity c shape = (w.engine.variants.nextId, { w with engine :=
      { w.engine with
        flow := { w.engine.flow with graph := w.flow.graph.addNodes labels }
        stats := { w.engine.stats with
          nodes := w.engine.stats.nodes + labels.length
          variants := w.engine.stats.variants + 1 }
        variants := w.engine.variants.push (w.engine.variants.pool.get entity c).2 ⟨entity, c⟩
          ⟨entity, c, layout⟩ rfl } }) := by
  unfold create
  dsimp only
  have hbuilt := w.built_addLayout w.engine.variants.nextId shape
  generalize w.addLayout w.engine.variants.nextId shape = added at hbuilt ⊢
  obtain ⟨layout, w₁⟩ := added
  obtain ⟨labels⟩ := hbuilt
  refine ⟨labels, layout, ?_⟩
  simp only [VariantTable.register_of_none hfind]

/-- A new variant is found from then on. -/
theorem find?_create [DecidableEq ε] {entity : ε} {c : Context ε} (shape : Shape)
    (hfind : w.engine.variants.find? entity c = none) :
    (w.create entity c shape).2.engine.variants.find? entity c =
      some (w.create entity c shape).1 := by
  obtain ⟨_, layout, hcreate⟩ := create_eq shape hfind
  rw [hcreate]
  dsimp only
  rw [VariantTable.find?_push, hfind, if_pos rfl]
  rfl

end World

/-! ## 2. The setup -/

/-- **What is set up from outside.** -/
structure Setup (ε τ σ : Type) [Ordered τ] where
  settings : Settings
  semantics : Option (Semantics ε τ σ)
  tokenManager : Option (TokenManager σ τ)
  environment : Option Environment
  phase : Phase

def World.setup (w : World ε τ σ) : Setup ε τ σ where
  settings := w.engine.settings
  semantics := w.engine.semantics
  tokenManager := w.engine.tokenManager
  environment := w.engine.environment
  phase := w.engine.phase

/-- The order in which the items of a bag are handed out. -/
def World.order (w : World ε τ σ) : BagOrder := w.flow.agenda.next.order

open ValueFlow.Flow in
/-- No operation changes the order of the agenda. -/
theorem Flow.Does.order {φ : Type} {sieve : φ → TokenSet τ → TokenSet τ} {f f' : Flow φ τ}
    {op : Operation φ τ} (h : Does sieve f op f') :
    f'.agenda.next.order = f.agenda.next.order := by
  have hlasting := Agenda.lasting_order (τ := τ) f.agenda.next.order
  cases h with
  | addNode | refuse | clear => rfl
  | link => exact growing_link hlasting.toGrowing rfl
  | deliver => exact growing_deliver hlasting.toGrowing rfl
  | offer => exact Graph.growing_offer hlasting.toGrowing rfl
  | setFilter _ hok =>
    obtain ⟨-, rfl⟩ := setFilter_eq_ok hok
    rfl
  | subscribe => exact hlasting.post _ rfl rfl
  | condense roots =>
    exact List.foldlRecOn (motive := fun f' : Flow φ τ => f'.agenda.next.order = _) _ _ rfl
      fun f' hf' _ _ => lasting_fuse hlasting hf'
  | schedule => exact Bag.order_add _ _
  | giveBack => exact hlasting.post _ rfl rfl
  | beginRound hbag =>
    obtain ⟨-, rfl⟩ := Agenda.startRound_eq_some hbag
    rfl
  | execute item =>
    exact execute_cases (P := fun f' : Flow φ τ => f'.agenda.next.order = _) item (fun _ => rfl)
      fun n tokens _ _ => growing_deliver hlasting.toGrowing rfl
  | putBack => exact Bag.order_foldl_add _ _

namespace Request

theorem order_perform (q : Request ε τ σ) (w : World ε τ σ) : (q.perform w).order = w.order := by
  rcases q.flow_perform w with h | ⟨op, -, hdoes⟩
  · exact congrArg (fun f : Flow (Filter σ τ) τ => f.agenda.next.order) h
  · exact hdoes.order

/-- **What a request leaves alone** that is no reset. -/
structure Frame (q : Request ε τ σ) (w : World ε τ σ) : Prop where
  setup : (q.perform w).setup = w.setup
  variants : (q.perform w).engine.variants = w.engine.variants
  nextTask : (∀ task, q ≠ .postpone task) → (q.perform w).engine.nextTask = w.engine.nextTask
  active : (∀ active, q ≠ .setActive active) → (q.perform w).active = w.active
  shared : (∀ shared, q ≠ .replace shared) → (∀ n type, q ≠ .filterByType n type) →
    (q.perform w).shared = w.shared

theorem frame {q : Request ε τ σ} (hq : q ≠ .reset) (w : World ε τ σ) : q.Frame w := by
  have same : ∀ {w' : World ε τ σ}, q.perform w = w' → w'.setup = w.setup ∧
      w'.engine.variants = w.engine.variants ∧ w'.engine.nextTask = w.engine.nextTask ∧
        w'.active = w.active ∧ w'.shared = w.shared → q.Frame w := by
    rintro w' rfl ⟨hsetup, hvariants, hnext, hactive, hshared⟩
    exact ⟨hsetup, hvariants, fun _ => hnext, fun _ => hactive, fun _ _ => hshared⟩
  cases q with
  | postpone task =>
    exact ⟨rfl, rfl, fun h => absurd rfl (h task), fun _ => rfl, fun _ _ => rfl⟩
  | addNode | condense => exact same rfl ⟨rfl, rfl, rfl, rfl, rfl⟩
  | replace shared => exact ⟨rfl, rfl, fun _ => rfl, fun _ => rfl, fun h => absurd rfl (h shared)⟩
  | setActive active =>
    exact ⟨rfl, rfl, fun _ => rfl, fun h => absurd rfl (h active), fun _ _ => rfl⟩
  | link source target =>
    rcases w.link_snd source target with h | ⟨-, -, h⟩ <;> exact same h ⟨rfl, rfl, rfl, rfl, rfl⟩
  | deliver n tokens =>
    rcases w.deliver_snd n tokens with h | ⟨-, h⟩ <;> exact same h ⟨rfl, rfl, rfl, rfl, rfl⟩
  | offer n tokens =>
    rcases w.offer_snd n tokens with h | ⟨-, h⟩ <;> exact same h ⟨rfl, rfl, rfl, rfl, rfl⟩
  | setFilter n f =>
    rcases w.setFilter_snd n f with h | ⟨_, -, -, h⟩ <;> exact same h ⟨rfl, rfl, rfl, rfl, rfl⟩
  | filterByType n type =>
    have taught : ∀ {w' : World ε τ σ}, (w.filterByType n type).2 = w' → w'.setup = w.setup ∧
        w'.engine.variants = w.engine.variants ∧ w'.engine.nextTask = w.engine.nextTask ∧
          w'.active = w.active → (filterByType n type).Frame w := by
      rintro w' rfl ⟨hsetup, hvariants, hnext, hactive⟩
      exact ⟨hsetup, hvariants, fun _ => hnext, fun _ => hactive,
        fun _ hn => absurd rfl (hn n type)⟩
    rcases w.filterByType_snd n type with ⟨s, h⟩ | ⟨m, f, s, -, -, h⟩
    · exact taught h ⟨rfl, rfl, rfl, rfl⟩
    · rcases World.setFilter_snd { w with shared := s } n f with h' | ⟨_, -, -, h'⟩ <;>
        exact taught (h.trans h') ⟨rfl, rfl, rfl, rfl⟩
  | listen n react =>
    rcases w.listen_snd n react with h | ⟨-, h⟩ <;> exact same h ⟨rfl, rfl, rfl, rfl, rfl⟩
  | condenseIfDue =>
    rcases w.condenseIfDue_snd with h | h <;> exact same h ⟨rfl, rfl, rfl, rfl, rfl⟩
  | reset => exact absurd rfl hq

/-- A request that neither adds a node nor condenses nor resets changes no more of the engine than
its flow, its listeners and its tasks. -/
theorem perform_eq {q : Request ε τ σ} (hadd : q ≠ .addNode) (hcondense : q ≠ .condense)
    (hdue : q ≠ .condenseIfDue) (hreset : q ≠ .reset) (w : World ε τ σ) :
    ∃ flow listeners tasks nextTask shared active, q.perform w =
      ⟨{ w.engine with flow, listeners, tasks, nextTask }, shared, active⟩ := by
  cases q with
  | addNode => exact absurd rfl hadd
  | condense => exact absurd rfl hcondense
  | condenseIfDue => exact absurd rfl hdue
  | reset => exact absurd rfl hreset
  | postpone | replace | setActive => exact ⟨_, _, _, _, _, _, rfl⟩
  | link source target =>
    rcases w.link_snd source target with h | ⟨-, -, h⟩ <;> exact ⟨_, _, _, _, _, _, h⟩
  | deliver n tokens =>
    rcases w.deliver_snd n tokens with h | ⟨-, h⟩ <;> exact ⟨_, _, _, _, _, _, h⟩
  | offer n tokens =>
    rcases w.offer_snd n tokens with h | ⟨-, h⟩ <;> exact ⟨_, _, _, _, _, _, h⟩
  | setFilter n f =>
    rcases w.setFilter_snd n f with h | ⟨_, -, -, h⟩ <;> exact ⟨_, _, _, _, _, _, h⟩
  | filterByType n type =>
    rcases w.filterByType_snd n type with ⟨s, h⟩ | ⟨m, f, s, -, -, h⟩
    · exact ⟨_, _, _, _, _, _, h⟩
    · rcases World.setFilter_snd { w with shared := s } n f with h' | ⟨_, -, -, h'⟩ <;>
        exact ⟨_, _, _, _, _, _, h.trans h'⟩
  | listen n react =>
    rcases w.listen_snd n react with h | ⟨-, h⟩ <;> exact ⟨_, _, _, _, _, _, h⟩

end Request

end ValueFlow
