import ValueFlow.Engine.Routine

/-!
# The engine

The engine holds the graph with its agenda, the variants, and the collaborators that were installed
or registered. Here are the requests that need no collaborator to run; those that do are in
`ValueFlow.Engine.Run`.

Requests that name a node check first that it exists, and change nothing if it does not.

* `Engine` (`FlowEngine`), and `World`: an engine with what its collaborators share;
* `addNode` (`new_node`), `link` (`connect`), `deliver` (`inject`), `offer` (`absorb`), `setFilter`,
  `filterByType`: requests about nodes;
* `listen` (`add_listener`), `postpone` (`defer`): collaborators that are run later;
* `condense` (`optimize`), `condenseIfDue` (`maybe_optimize`): passes over the cycles;
* `find?` (`query`), `create` (`allocate_nodes`): variants.
-/

namespace ValueFlow

/-- **The engine**: what collaborators can look at, and the collaborators. -/
structure Engine (ε τ σ : Type) [Ordered τ] extends View ε τ σ where
  listeners : Array (NodeId → TokenSet τ → Routine ε τ σ) := #[]
  tasks : Table TaskId (Routine ε τ σ) := ∅
  nextTask : TaskId := ⟨0⟩
  semantics : Option (Semantics ε τ σ) := none
  tokenManager : Option (TokenManager σ τ) := none

/-- **The engine among its surroundings**: the state that the collaborators share, and whether the
analysis may go on. -/
structure World (ε τ σ : Type) [Ordered τ] where
  engine : Engine ε τ σ
  shared : σ
  active : Bool := true

namespace Engine

variable {ε τ σ : Type} [Ordered τ]

def new (settings : Settings) : Engine ε τ σ where
  settings
  flow := .empty settings.bagOrder
  variants := .empty settings.indexStrategy

/-- Back to the start; what is installed stays. -/
def reset (e : Engine ε τ σ) : Engine ε τ σ :=
  { e with
    flow := ⟨.empty, e.flow.agenda.clear⟩
    variants := e.variants.reset
    phase := .unstable
    stats := {}
    workSincePass := 0
    listeners := #[]
    tasks := ∅
    nextTask := ⟨0⟩ }

def isStable (e : Engine ε τ σ) : Bool := e.phase == .stable

def hasPendingWork (e : Engine ε τ σ) : Bool := e.flow.agenda.hasWork

/-- The tokens of a node, if it exists. -/
def tokens? (e : Engine ε τ σ) (n : NodeId) : Option (TokenSet τ) :=
  if e.flow.graph.contains n then some (e.flow.graph.tokens n) else none

/-- The context in which a call is entered, limited as the settings say. -/
def pushCall (e : Engine ε τ σ) (c : Context ε) (call : ε) : Context ε :=
  c.pushCall call e.settings.callDepth.toNat

/-- The variant of an entity in a context; never creates one. -/
def find? [DecidableEq ε] (e : Engine ε τ σ) (entity : ε) (c : Context ε) : Option VariantId :=
  e.semantics.bind fun s => e.variants.find? entity (c.project (s.sensitivity entity))

def text (e : Engine ε τ σ) : String :=
  let phase := match e.phase with
    | .unstable => "Unstable"
    | .stable => "Stable"
  s!"FlowEngine \x7b state: {phase}, nodes: {e.stats.nodes}, variants: {e.stats.variants}, " ++
    s!"listeners: {e.listeners.size}, pending_tasks: {e.tasks.size} \x7d"

end Engine

namespace World

variable {ε τ σ : Type} [Ordered τ]

def flow (w : World ε τ σ) : Flow (Filter σ τ) τ := w.engine.flow

def setFlow (w : World ε τ σ) (flow : Flow (Filter σ τ) τ) : World ε τ σ :=
  { w with engine := { w.engine with flow } }

/-- What filters let through, by what the collaborators know now. -/
def sieve (w : World ε τ σ) (f : Filter σ τ) (tokens : TokenSet τ) : TokenSet τ := f w.shared tokens

/-! ## 1. Nodes -/

def checkNode (w : World ε τ σ) (n : NodeId) : Except Failure Unit :=
  if w.flow.graph.contains n then .ok () else .error (.usage (.unknownNode n))

/-- A new node with a label; it is counted. -/
def addLabelled (w : World ε τ σ) (label : Label) : NodeId × World ε τ σ :=
  let (n, flow) := w.flow.addNode (some label)
  let e := w.engine
  (n, { w with engine := { e with flow, stats := { e.stats with nodes := e.stats.nodes + 1 } } })

/-- A new node that no variant owns. -/
def addNode (w : World ε τ σ) : NodeId × World ε τ σ := w.addLabelled .auxiliary

def link (w : World ε τ σ) (source target : NodeId) : Except Failure Bool × World ε τ σ :=
  match w.checkNode source, w.checkNode target with
  | .error e, _ => (.error e, w)
  | .ok _, .error e => (.error e, w)
  | .ok _, .ok _ =>
    let (fresh, flow) := w.flow.link w.sieve source target
    (.ok fresh, w.setFlow flow)

def deliver (w : World ε τ σ) (n : NodeId) (tokens : TokenSet τ) :
    Except Failure Bool × World ε τ σ :=
  match w.checkNode n with
  | .error e => (.error e, w)
  | .ok _ =>
    let (grew, flow) := w.flow.deliver w.sieve n tokens
    (.ok grew, w.setFlow flow)

def offer (w : World ε τ σ) (n : NodeId) (tokens : TokenSet τ) :
    Except Failure Bool × World ε τ σ :=
  match w.checkNode n with
  | .error e => (.error e, w)
  | .ok _ =>
    let (any, flow) := w.flow.offer n tokens
    (.ok any, w.setFlow flow)

def setFilter (w : World ε τ σ) (n : NodeId) (f : Filter σ τ) :
    Except Failure Unit × World ε τ σ :=
  match w.checkNode n with
  | .error e => (.error e, w)
  | .ok _ =>
    match w.flow.setFilter n f with
    | .error e => (.error (.usage e), w)
    | .ok flow => (.ok (), w.setFlow flow)

/-- Put the filter for a type on a node; answers whether the type is known, which is asked before
the node is looked at. -/
def filterByType (w : World ε τ σ) (n : NodeId) (type : String) :
    Except Failure Bool × World ε τ σ :=
  match w.engine.tokenManager with
  | none => (.error (.unconfigured .tokenManager), w)
  | some m =>
    match m.typeFilter type w.shared with
    | (none, shared) => (.ok false, { w with shared })
    | (some f, shared) =>
      match { w with shared }.setFilter n f with
      | (.error e, w) => (.error e, w)
      | (.ok _, w) => (.ok true, w)

/-! ## 2. Listeners and tasks -/

def listen (w : World ε τ σ) (n : NodeId) (react : NodeId → TokenSet τ → Routine ε τ σ) :
    Except Failure ListenerId × World ε τ σ :=
  match w.checkNode n with
  | .error e => (.error e, w)
  | .ok _ =>
    let e := w.engine
    let l : ListenerId := ⟨e.listeners.size⟩
    (.ok l, { w with engine :=
      { e with listeners := e.listeners.push react, flow := e.flow.subscribe w.sieve n l } })

def postpone (w : World ε τ σ) (task : Routine ε τ σ) : TaskId × World ε τ σ :=
  let e := w.engine
  let id := e.nextTask
  let agenda := (e.flow.agenda.schedule (.task id)).2
  (id, { w with engine :=
    { e with
      nextTask := ⟨id.index + 1⟩
      tasks := e.tasks.set id task
      flow := { e.flow with agenda } } })

/-! ## 3. Cycles -/

/-- Condense the cycles of the whole graph. -/
def condense (w : World ε τ σ) : CondenseReport × World ε τ σ :=
  let e := w.engine
  let (report, flow) := e.flow.condense e.flow.graph.ids
  (report, { w with engine :=
    { e with
      flow
      workSincePass := 0
      stats :=
        { e.stats with
          passes := e.stats.passes + 1
          fusedCycles := e.stats.fusedCycles + report.fusedCycles
          absorbed := e.stats.absorbed + report.absorbed } } })

/-- Whether enough work was done since cycles were last condensed. -/
def condenseDue (w : World ε τ σ) : Bool :=
  let s := w.engine.settings
  s.condenses && s.sccInterval.toInt ≤ w.engine.workSincePass

def condenseIfDue (w : World ε τ σ) : Option CondenseReport × World ε τ σ :=
  if w.condenseDue then
    let (report, w) := w.condense
    (some report, w)
  else (none, w)

/-! ## 4. Variants -/

/-- Nodes with these roles, in order. -/
def addNodes (w : World ε τ σ) (owner : VariantId) : List Role → List NodeId × World ε τ σ
  | [] => ([], w)
  | role :: roles =>
    let (n, w) := w.addLabelled (.of owner role)
    let (ns, w) := addNodes w owner roles
    (n :: ns, w)

/-- A node if it is wanted. -/
def addNodeIf (w : World ε τ σ) (wanted : Bool) (label : Label) : Option NodeId × World ε τ σ :=
  if wanted then
    let (n, w) := w.addLabelled label
    (some n, w)
  else (none, w)

/-- The nodes that a shape asks for. -/
def addLayout (w : World ε τ σ) (owner : VariantId) : Shape → Layout × World ε τ σ
  | .value =>
    let (n, w) := w.addLabelled (.of owner .value)
    (.value n, w)
  | .method count hasReceiver hasResult =>
    let (receiver, w) := w.addNodeIf hasReceiver (.of owner .receiver)
    let (parameters, w) := w.addNodes owner ((List.range count).map Role.parameter)
    let (result, w) := w.addNodeIf hasResult (.of owner .result)
    let (thrown, w) := w.addLabelled (.of owner .thrown)
    (.method receiver parameters result thrown, w)
  | .invocation =>
    let (n, w) := w.addLabelled (.of owner .value)
    let (thrown, w) := w.addLabelled (.of owner .thrown)
    (.invocation n thrown, w)

/-- Create the variant of an entity in a context, with its nodes. -/
def create [DecidableEq ε] (w : World ε τ σ) (entity : ε) (c : Context ε) (shape : Shape) :
    VariantId × World ε τ σ :=
  let (layout, w) := w.addLayout w.engine.variants.nextId shape
  let e := w.engine
  let (id, variants) := e.variants.register entity c layout
  (id, { w with engine :=
    { e with variants, stats := { e.stats with variants := e.stats.variants + 1 } } })

end World

end ValueFlow
