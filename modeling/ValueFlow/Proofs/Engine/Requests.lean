import ValueFlow.Engine.Run
import ValueFlow.Proofs.Flow.Histories

/-!
# Requests

What a collaborator asks of the engine without another collaborator being run for it. Whatever the
request is, and whether it is refused or not, there are few things that it can do to the flow and to
the collaborators; they are said here once.

* `Request.perform`: the world after a request;
* `Routine.Only`, `Staff.Only`: collaborators that ask only for what is allowed;
* `Request.staff_perform`, `Request.flow_perform`: what a request does to the collaborators, and
  what to the flow.
-/

namespace ValueFlow

open ValueFlow.Flow

variable {ε τ σ : Type} [Ordered τ]

/-! ## 1. Requests -/

/-- **A request that runs no collaborator.** -/
inductive Request (ε τ σ : Type) [Ordered τ] where
  | addNode
  | link (source target : NodeId)
  | deliver (node : NodeId) (tokens : TokenSet τ)
  | offer (node : NodeId) (tokens : TokenSet τ)
  | setFilter (node : NodeId) (filter : Filter σ τ)
  | filterByType (node : NodeId) (type : String)
  | listen (node : NodeId) (react : NodeId → TokenSet τ → Routine ε τ σ)
  | postpone (task : Routine ε τ σ)
  | condense
  | condenseIfDue
  | reset
  | replace (shared : σ)
  | setActive (active : Bool)

/-- The world after a request, whether it was refused or not. -/
def Request.perform (w : World ε τ σ) : Request ε τ σ → World ε τ σ
  | .addNode => w.addNode.2
  | .link source target => (w.link source target).2
  | .deliver n tokens => (w.deliver n tokens).2
  | .offer n tokens => (w.offer n tokens).2
  | .setFilter n filter => (w.setFilter n filter).2
  | .filterByType n type => (w.filterByType n type).2
  | .listen n react => (w.listen n react).2
  | .postpone task => (w.postpone task).2
  | .condense => w.condense.2
  | .condenseIfDue => w.condenseIfDue.2
  | .reset => { w with engine := w.engine.reset }
  | .replace shared => { w with shared }
  | .setActive active => { w with active }

/-- **The routine asks only for what is allowed**, whatever it is answered, and so do the routines
that it registers or postpones. -/
def Routine.Only (allowed : Request ε τ σ → Prop) : Routine ε τ σ → Prop
  | .done => True
  | .fail _ => True
  | .instantiate _ _ next => ∀ answer, (next answer).Only allowed
  | .find _ _ next => ∀ answer, (next answer).Only allowed
  | .addNode next => allowed .addNode ∧ ∀ n, (next n).Only allowed
  | .link source target next =>
    allowed (.link source target) ∧ ∀ answer, (next answer).Only allowed
  | .deliver n tokens next => allowed (.deliver n tokens) ∧ ∀ answer, (next answer).Only allowed
  | .offer n tokens next => allowed (.offer n tokens) ∧ ∀ answer, (next answer).Only allowed
  | .setFilter n f next => allowed (.setFilter n f) ∧ ∀ answer, (next answer).Only allowed
  | .filterByType n type next =>
    allowed (.filterByType n type) ∧ ∀ answer, (next answer).Only allowed
  | .listen n react next => allowed (.listen n react) ∧
    (∀ m tokens, (react m tokens).Only allowed) ∧ ∀ answer, (next answer).Only allowed
  | .postpone task next =>
    allowed (.postpone task) ∧ task.Only allowed ∧ ∀ id, (next id).Only allowed
  | .round next => ∀ answer, (next answer).Only allowed
  | .condense next => allowed .condense ∧ ∀ report, (next report).Only allowed
  | .condenseIfDue next => allowed .condenseIfDue ∧ ∀ report, (next report).Only allowed
  | .reset next => allowed .reset ∧ next.Only allowed
  | .observe next => ∀ view, (next view).Only allowed
  | .consult next => ∀ shared, (next shared).Only allowed
  | .replace shared next => allowed (.replace shared) ∧ next.Only allowed
  | .setActive active next => allowed (.setActive active) ∧ next.Only allowed

/-- The routines that a request hands over are of this kind, too. -/
def Request.Only (allowed : Request ε τ σ → Prop) : Request ε τ σ → Prop
  | .listen n react => allowed (.listen n react) ∧ ∀ m tokens, (react m tokens).Only allowed
  | .postpone task => allowed (.postpone task) ∧ task.Only allowed
  | q => allowed q

/-! ## 2. The collaborators -/

/-- The collaborators of an engine, and how often cycles were condensed for them. -/
structure Staff (ε τ σ : Type) [Ordered τ] where
  listeners : Array (NodeId → TokenSet τ → Routine ε τ σ)
  tasks : Table TaskId (Routine ε τ σ)
  semantics : Option (Semantics ε τ σ)
  tokenManager : Option (TokenManager σ τ)
  passes : Nat

def World.staff (w : World ε τ σ) : Staff ε τ σ where
  listeners := w.engine.listeners
  tasks := w.engine.tasks
  semantics := w.engine.semantics
  tokenManager := w.engine.tokenManager
  passes := w.engine.stats.passes

/-- **All collaborators ask only for what is allowed.** -/
structure Staff.Only (allowed : Request ε τ σ → Prop) (s : Staff ε τ σ) : Prop where
  listeners : ∀ {i : Nat} {react}, s.listeners[i]? = some react →
    ∀ n tokens, (react n tokens).Only allowed
  tasks : ∀ {id task}, s.tasks.get? id = some task → task.Only allowed
  semantics : ∀ {language}, s.semantics = some language →
    ∀ id, (language.discover id).Only allowed

/-! ## 3. What a request does -/

namespace World

variable {w : World ε τ σ} {n : NodeId} {tokens : TokenSet τ}

theorem link_snd (w : World ε τ σ) (source target : NodeId) :
    (w.link source target).2 = w ∨ w.flow.graph.contains source ∧ w.flow.graph.contains target ∧
      (w.link source target).2 = w.setFlow (w.flow.link w.sieve source target).2 := by
  unfold link checkNode
  by_cases hs : w.flow.graph.contains source <;> by_cases ht : w.flow.graph.contains target <;>
    simp [hs, ht]

theorem deliver_snd (w : World ε τ σ) (n : NodeId) (tokens : TokenSet τ) :
    (w.deliver n tokens).2 = w ∨ w.flow.graph.contains n ∧
      (w.deliver n tokens).2 = w.setFlow (w.flow.deliver w.sieve n tokens).2 := by
  unfold deliver checkNode
  by_cases hn : w.flow.graph.contains n <;> simp [hn]

theorem offer_snd (w : World ε τ σ) (n : NodeId) (tokens : TokenSet τ) :
    (w.offer n tokens).2 = w ∨ w.flow.graph.contains n ∧
      (w.offer n tokens).2 = w.setFlow (w.flow.offer n tokens).2 := by
  unfold offer checkNode
  by_cases hn : w.flow.graph.contains n <;> simp [hn]

theorem setFilter_snd (w : World ε τ σ) (n : NodeId) (f : Filter σ τ) :
    (w.setFilter n f).2 = w ∨ ∃ flow, w.flow.graph.contains n ∧ w.flow.setFilter n f = .ok flow ∧
      (w.setFilter n f).2 = w.setFlow flow := by
  unfold setFilter checkNode
  by_cases hn : w.flow.graph.contains n
  · cases hs : w.flow.setFilter n f <;> simp [hn]
  · simp [hn]

theorem listen_snd (w : World ε τ σ) (n : NodeId) (react : NodeId → TokenSet τ → Routine ε τ σ) :
    (w.listen n react).2 = w ∨ w.flow.graph.contains n ∧
      (w.listen n react).2 = { w with engine := { w.engine with
        listeners := w.engine.listeners.push react
        flow := w.flow.subscribe w.sieve n ⟨w.engine.listeners.size⟩ } } := by
  by_cases hn : w.flow.graph.contains n
  · refine .inr ⟨hn, ?_⟩
    unfold listen checkNode
    rw [if_pos hn]
    rfl
  · refine .inl ?_
    unfold listen checkNode
    rw [if_neg hn]

/-- Asking for a filter by its type may teach the token manager something, and then asks for the
filter. -/
theorem filterByType_snd (w : World ε τ σ) (n : NodeId) (type : String) :
    (∃ s, (w.filterByType n type).2 = { w with shared := s }) ∨ ∃ m f s,
      w.engine.tokenManager = some m ∧ m.typeFilter type w.shared = (some f, s) ∧
        (w.filterByType n type).2 = (World.setFilter { w with shared := s } n f).2 := by
  unfold filterByType
  cases hm : w.engine.tokenManager with
  | none => exact .inl ⟨w.shared, rfl⟩
  | some m =>
    dsimp only
    cases hf : m.typeFilter type w.shared with
    | mk f s =>
      cases f with
      | none => exact .inl ⟨s, rfl⟩
      | some f =>
        refine .inr ⟨m, f, s, rfl, hf, ?_⟩
        dsimp only
        split <;> rename_i h <;> rw [h]

theorem condenseIfDue_snd (w : World ε τ σ) :
    w.condenseIfDue.2 = w ∨ w.condenseIfDue.2 = w.condense.2 := by
  by_cases hdue : w.condenseDue <;> simp [condenseIfDue, hdue]

/-! ### Collaborators -/

theorem staff_link (w : World ε τ σ) (source target : NodeId) :
    (w.link source target).2.staff = w.staff := by
  rcases w.link_snd source target with h | ⟨-, -, h⟩ <;> exact (congrArg World.staff h :)

theorem staff_deliver (w : World ε τ σ) (n : NodeId) (tokens : TokenSet τ) :
    (w.deliver n tokens).2.staff = w.staff := by
  rcases w.deliver_snd n tokens with h | ⟨-, h⟩ <;> exact (congrArg World.staff h :)

theorem staff_offer (w : World ε τ σ) (n : NodeId) (tokens : TokenSet τ) :
    (w.offer n tokens).2.staff = w.staff := by
  rcases w.offer_snd n tokens with h | ⟨-, h⟩ <;> exact (congrArg World.staff h :)

theorem staff_setFilter (w : World ε τ σ) (n : NodeId) (f : Filter σ τ) :
    (w.setFilter n f).2.staff = w.staff := by
  rcases w.setFilter_snd n f with h | ⟨flow, -, -, h⟩ <;> exact (congrArg World.staff h :)

theorem staff_filterByType (w : World ε τ σ) (n : NodeId) (type : String) :
    (w.filterByType n type).2.staff = w.staff := by
  rcases w.filterByType_snd n type with ⟨s, h⟩ | ⟨m, f, s, -, -, h⟩
  · rw [h]
    rfl
  · rw [h, staff_setFilter]
    rfl

end World

namespace Request

variable {w : World ε τ σ} {q : Request ε τ σ}

/-- **What a request does to the collaborators.** -/
theorem staff_perform (q : Request ε τ σ) (w : World ε τ σ) :
    (q.perform w).staff = w.staff ∨
      (∃ n react, q = .listen n react ∧ (q.perform w).staff =
        { w.staff with listeners := w.staff.listeners.push react }) ∨
      (∃ task, q = .postpone task ∧ (q.perform w).staff =
        { w.staff with tasks := w.staff.tasks.set w.engine.nextTask task }) ∨
      ((q = .condense ∨ q = .condenseIfDue) ∧ (q.perform w).staff =
        { w.staff with passes := w.staff.passes + 1 }) ∨
      q = .reset ∧ (q.perform w).staff =
        { w.staff with listeners := #[], tasks := ∅, passes := 0 } := by
  cases q with
  | addNode | replace | setActive => exact .inl rfl
  | link source target => exact .inl (w.staff_link source target)
  | deliver n tokens => exact .inl (w.staff_deliver n tokens)
  | offer n tokens => exact .inl (w.staff_offer n tokens)
  | setFilter n f => exact .inl (w.staff_setFilter n f)
  | filterByType n type => exact .inl (w.staff_filterByType n type)
  | listen n react =>
    rcases w.listen_snd n react with h | ⟨-, h⟩
    · exact .inl (congrArg World.staff h)
    · exact .inr (.inl ⟨n, react, rfl, congrArg World.staff h⟩)
  | postpone task => exact .inr (.inr (.inl ⟨task, rfl, rfl⟩))
  | condense => exact .inr (.inr (.inr (.inl ⟨.inl rfl, rfl⟩)))
  | condenseIfDue =>
    rcases w.condenseIfDue_snd with h | h
    · exact .inl (congrArg World.staff h)
    · exact .inr (.inr (.inr (.inl ⟨.inr rfl, congrArg World.staff h⟩)))
  | reset => exact .inr (.inr (.inr (.inr ⟨rfl, rfl⟩)))

/-- Requests keep collaborators that ask only for what is allowed. -/
theorem Only.perform {allowed : Request ε τ σ → Prop} (hq : q.Only allowed)
    (hw : w.staff.Only allowed) : (q.perform w).staff.Only allowed := by
  rcases q.staff_perform w with h | ⟨n, react, rfl, h⟩ | ⟨task, rfl, h⟩ | ⟨-, h⟩ | ⟨-, h⟩ <;> rw [h]
  · exact hw
  · refine ⟨fun {i r} hr => ?_, hw.tasks, hw.semantics⟩
    rw [Array.getElem?_push] at hr
    split at hr
    · cases hr
      exact hq.2
    · exact hw.listeners hr
  · refine ⟨hw.listeners, fun {id r} hr => ?_, hw.semantics⟩
    rw [Table.get?_set] at hr
    split at hr
    · cases hr
      exact hq.2
    · exact hw.tasks hr
  · exact ⟨hw.listeners, hw.tasks, hw.semantics⟩
  · exact ⟨nofun, nofun, hw.semantics⟩

/-! ### The flow -/

/-- **What a request asks of the flow.** -/
inductive Asks (w : World ε τ σ) : Request ε τ σ → Operation (Filter σ τ) τ → Prop where
  | addNode : Asks w .addNode (.addNode (some .auxiliary))
  | link (source : NodeId) {target : NodeId} (htarget : w.flow.graph.contains target) :
      Asks w (.link source target) (.link source target)
  | deliver (n : NodeId) (tokens : TokenSet τ) : Asks w (.deliver n tokens) (.deliver n tokens)
  | offer (n : NodeId) (tokens : TokenSet τ) : Asks w (.offer n tokens) (.offer n tokens)
  | setFilter (n : NodeId) (f : Filter σ τ) : Asks w (.setFilter n f) (.setFilter n f)
  | filterByType (n : NodeId) {type : String} {m : TokenManager σ τ} {f : Filter σ τ} {s : σ}
      (hm : w.engine.tokenManager = some m) (hf : m.typeFilter type w.shared = (some f, s)) :
      Asks w (.filterByType n type) (.setFilter n f)
  | listen (n : NodeId) (react : NodeId → TokenSet τ → Routine ε τ σ) :
      Asks w (.listen n react) (.subscribe n ⟨w.engine.listeners.size⟩)
  | postpone (task : Routine ε τ σ) : Asks w (.postpone task) (.schedule w.engine.nextTask)
  | condense : Asks w .condense (.condense w.flow.graph.ids)
  | condenseIfDue : Asks w .condenseIfDue (.condense w.flow.graph.ids)
  | reset : Asks w .reset .clear

theorem Asks.ne_clear {op : Operation (Filter σ τ) τ} (h : q.Asks w op) (hreset : q ≠ .reset) :
    op ≠ .clear := by
  cases h with
  | reset => exact absurd rfl hreset
  | _ => nofun

theorem asks_of_flow_eq {op : Operation (Filter σ τ) τ} {f : Flow (Filter σ τ) τ}
    (h : (q.perform w).flow = f) (hasks : q.Asks w op) (hdoes : Does w.sieve w.flow op f) :
    ∃ op, q.Asks w op ∧ Does w.sieve w.flow op (q.perform w).flow :=
  ⟨op, hasks, h ▸ hdoes⟩

/-- **What a request does to the flow**: nothing, or what it asks of it. -/
theorem flow_perform (q : Request ε τ σ) (w : World ε τ σ) :
    (q.perform w).flow = w.flow ∨
      ∃ op, q.Asks w op ∧ Does w.sieve w.flow op (q.perform w).flow := by
  cases q with
  | addNode => exact .inr ⟨_, .addNode, .addNode _⟩
  | link source target =>
    rcases w.link_snd source target with h | ⟨hs, ht, h⟩
    · exact .inl (congrArg World.flow h)
    · exact .inr (asks_of_flow_eq (congrArg World.flow h) (.link source ht) (.link target hs))
  | deliver n tokens =>
    rcases w.deliver_snd n tokens with h | ⟨hn, h⟩
    · exact .inl (congrArg World.flow h)
    · exact .inr (asks_of_flow_eq (congrArg World.flow h) (.deliver n tokens) (.deliver tokens hn))
  | offer n tokens =>
    rcases w.offer_snd n tokens with h | ⟨hn, h⟩
    · exact .inl (congrArg World.flow h)
    · exact .inr (asks_of_flow_eq (congrArg World.flow h) (.offer n tokens) (.offer tokens hn))
  | setFilter n f =>
    rcases w.setFilter_snd n f with h | ⟨flow, hn, hok, h⟩
    · exact .inl (congrArg World.flow h)
    · exact .inr (asks_of_flow_eq (congrArg World.flow h) (.setFilter n f) (.setFilter hn hok))
  | filterByType n type =>
    rcases w.filterByType_snd n type with ⟨s, h⟩ | ⟨m, f, s, hm, hf, h⟩
    · exact .inl (congrArg World.flow h :)
    · have hflow := congrArg World.flow h
      rcases World.setFilter_snd { w with shared := s } n f with h' | ⟨flow, hn, hok, h'⟩
      · exact .inl (hflow.trans (congrArg World.flow h') :)
      · exact .inr (asks_of_flow_eq (hflow.trans (congrArg World.flow h')) (.filterByType n hm hf)
          (.setFilter hn hok))
  | listen n react =>
    rcases w.listen_snd n react with h | ⟨hn, h⟩
    · exact .inl (congrArg World.flow h)
    · exact .inr (asks_of_flow_eq (congrArg World.flow h) (.listen n react) (.subscribe _ hn))
  | postpone task => exact .inr ⟨_, .postpone task, .schedule _⟩
  | condense => exact .inr ⟨_, .condense, .condense _⟩
  | condenseIfDue =>
    rcases w.condenseIfDue_snd with h | h
    · exact .inl (congrArg World.flow h)
    · exact .inr (asks_of_flow_eq (congrArg World.flow h) .condenseIfDue (.condense _))
  | reset => exact .inr ⟨_, .reset, .clear⟩
  | replace | setActive => exact .inl rfl

end Request

end ValueFlow
