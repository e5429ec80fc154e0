import ValueFlow.Script.Basic
import ValueFlow.Types.Manager

/-!
# What scripts do

Every action becomes a routine. An action is told what to go on with: a function of the frame it
leaves behind and of its failure, if it fails. A body stops at its first failure, which is then its
own.

Listeners and postponed work get the frame as it is when they are registered, and each of their
runs starts from that.
-/

namespace ValueFlow.Script

variable {τ : Type} [Token τ]

/-- The routines of scripts. -/
abbrev Steps (τ : Type) [Token τ] := Routine String τ (Notebook τ)

/-- What an action is followed by. -/
abbrev Next (τ : Type) [Token τ] := Frame τ → Except Failure Unit → Steps τ

/-- The end of a body: its failure is that of the routine. -/
def finish : Next τ
  | _, .ok _ => .done
  | _, .error e => .fail e

def note (e : Entry τ) (next : Steps τ) : Steps τ :=
  .consult fun nb => .replace { nb with entries := e :: nb.entries } next

/-! ## 1. Names, tokens and nodes -/

/-- Complete a name by the token at hand. -/
def Frame.name (f : Frame τ) (s : String) : String :=
  match f.atHand with
  | some t => String.ofList (fillIn (Token.text t).toList s.toList)
  | none => s

def Frame.tokens (f : Frame τ) : TokenExpr τ → TokenSet τ
  | .literal ts => .ofList ts
  | .received => f.received
  | .atHand =>
    match f.atHand with
    | some t => .singleton t
    | none => ∅

def noSuchNode : Failure := .collaborator "no such node"

/-- Go on with the context that an expression stands for. -/
def withContext (f : Frame τ) (x : ContextExpr) (next : Context String → Steps τ) : Steps τ :=
  .observe fun v => next (x.eval f.name v.settings.callDepth.toNat f.context)

/-- Go on with a node of a variant. -/
def withPart (id : Option VariantId) (part : Part) (next : Except Failure NodeId → Steps τ) :
    Steps τ :=
  .observe fun v =>
    match (id.bind v.variants.get?).bind part.of? with
    | some n => next (.ok n)
    | none => next (.error noSuchNode)

/-- Go on with the node that is referred to. -/
def withNode (f : Frame τ) (r : NodeRef) (next : Except Failure NodeId → Steps τ) : Steps τ :=
  let given : Option NodeId → Steps τ
    | some n => next (.ok n)
    | none => next (.error noSuchNode)
  match r with
  | .handle n => next (.ok n)
  | .notified => given f.notified
  | .named name => given (f.bindings.get? name)
  | .own part => withPart f.variant part next
  | .ofEntity entity context part =>
    let entity := f.name entity
    withContext f context fun c => .instantiate entity c fun
      | .error e => next (.error e)
      | .ok none => next (.error (.collaborator s!"{entity} not selectable"))
      | .ok (some id) => withPart (some id) part next

/-- Go on only after a success. -/
def onSuccess {α : Type} (f : Frame τ) (next : Next τ) (k : α → Steps τ) : Except Failure α → Steps τ
  | .ok a => k a
  | .error e => next f (.error e)

/-- Note down what was done and go on. -/
def noteDone (f : Frame τ) (next : Next τ) (e : Entry τ) : Steps τ := note e (next f (.ok ()))

/-! ## 2. Actions -/

/-- Take tokens at hand one after the other. -/
def forTokens (body : Frame τ → Next τ → Steps τ) : List τ → Frame τ → Next τ → Steps τ
  | [], f, next => next f (.ok ())
  | t :: ts, f, next =>
    body { f with atHand := some t } fun f' => fun
      | .error e => next { f' with atHand := f.atHand } (.error e)
      | .ok _ => forTokens body ts { f' with atHand := f.atHand } next

mutual

/-- **One action** in a frame. -/
def Action.steps : Action τ → Frame τ → Next τ → Steps τ
  | .addNode name, f, next =>
    .addNode fun n =>
      noteDone { f with bindings := f.bindings.set name n } next (.addedNode n)
  | .link source target, f, next =>
    withNode f source <| onSuccess f next fun a =>
      withNode f target <| onSuccess f next fun b =>
        .link a b <| onSuccess f next fun fresh => noteDone f next (.linked a b fresh)
  | .deliver node tokens, f, next =>
    withNode f node <| onSuccess f next fun n =>
      .deliver n (f.tokens tokens) <| onSuccess f next fun grew =>
        noteDone f next (.delivered n grew)
  | .offer node tokens, f, next =>
    withNode f node <| onSuccess f next fun n =>
      .offer n (f.tokens tokens) <| onSuccess f next fun any => noteDone f next (.offered n any)
  | .setFilter node rule, f, next =>
    withNode f node <| onSuccess f next fun n =>
      .setFilter n (fun _ s => rule.apply s) <| onSuccess f next fun _ =>
        noteDone f next (.filtered n)
  | .filterByType node type, f, next =>
    withNode f node <| onSuccess f next fun n =>
      .filterByType n type <| onSuccess f next fun known =>
        noteDone f next (.filteredByType n known)
  | .allocate type node site, f, next =>
    .observe fun v =>
      match v.environment with
      | none => next f (.error (.unconfigured .environment))
      | some env =>
        match env.resolveClass type with
        | none => next f (.error (.collaborator s!"unknown class {type}"))
        | some _ =>
          withNode f node <| onSuccess f next fun n =>
            .consult fun nb =>
              let (symbol, types) := nb.types.object type (f.name site)
              .replace { nb with types } <|
                .deliver n (.singleton (Token.ofSymbol symbol)) <| onSuccess f next fun grew =>
                  noteDone f next (.allocated n symbol grew)
  | .listen node tag body, f, next =>
    withNode f node <| onSuccess f next fun n =>
      .listen n
        (fun n tokens => note (.notified tag n tokens) <|
          bodySteps body { f with notified := some n, received := tokens } finish)
        (onSuccess f next fun l => noteDone f next (.listening n l))
  | .postpone tag body, f, next =>
    .postpone (note (.started tag) (bodySteps body f finish)) fun id =>
      noteDone f next (.postponed id)
  | .instantiate entity context, f, next =>
    let entity := f.name entity
    withContext f context fun c => .instantiate entity c <| onSuccess f next fun id =>
      noteDone f next (.instantiated entity id)
  | .find entity context, f, next =>
    let entity := f.name entity
    withContext f context fun c => .find entity c fun id => noteDone f next (.found entity id)
  | .inspect node, f, next =>
    withNode f node <| onSuccess f next fun n =>
      .observe fun v =>
        let g := v.flow.graph
        noteDone f next (.inspected n (if g.contains n then some (g.tokens n) else none))
  | .forEach body, f, next => forTokens (bodySteps body) f.received.elements f next
  | .fail text, f, next => next f (.error (.collaborator (f.name text)))
  | .misuse text, f, next => next f (.error (.usage (.reported (f.name text))))
  | .failOnce text, f, next =>
    let text := f.name text
    .consult fun nb =>
      if nb.spent.contains text then next f (.ok ())
      else .replace { nb with spent := text :: nb.spent } (next f (.error (.collaborator text)))
  | .condense, f, next => .condense fun report => noteDone f next (.condensed report)
  | .condenseIfDue, f, next =>
    .condenseIfDue fun report => noteDone f next (.condensedIfDue report)
  | .round, f, next => .round <| onSuccess f next fun n => noteDone f next (.didRound n)
  | .reset, f, next => .reset (noteDone f next .wasReset)
  | .setActive active, f, next => .setActive active (noteDone f next (.setActive active))

/-- The actions of a body, up to the first failure. -/
def bodySteps : List (Action τ) → Frame τ → Next τ → Steps τ
  | [], f, next => next f (.ok ())
  | action :: rest, f, next =>
    action.steps f fun f => fun
      | .error e => next f (.error e)
      | .ok _ => bodySteps rest f next

end

/-! ## 3. Programs -/

/-- **The semantics that a program writes down.** A plain one tells all contexts apart, whatever
the program says. -/
def semantics (p : Program τ) (plain : Bool) : Semantics String τ (Notebook τ) where
  shape entity := (p.script entity).shape
  sensitivity entity := if plain then .full else (p.script entity).sensitivity
  discover id :=
    .observe fun v =>
      match v.variants.get? id with
      | none => .done
      | some variant =>
        note (.discovering id variant.entity) <|
          bodySteps (p.script variant.entity).body
            { variant := some id, context := variant.context } finish

/-- The token manager of the types in the notebook. -/
def typeManager : TokenManager (Notebook Symbol) Symbol :=
  TypeRegistry.manager Notebook.types fun types nb => { nb with types }

/-- **Perform one action** that belongs to no collaborator, in the frame kept for such actions. -/
def perform (fuel : Nat) (action : Action τ) (a : Analysis String τ (Notebook τ)) :
    Option (Except Failure Unit × Analysis String τ (Notebook τ)) :=
  let steps := action.steps a.world.shared.top fun f r =>
    .consult fun nb => .replace { nb with top := f } (finish f r)
  (World.run fuel steps a.world).map fun (r, world) => (r, { a with world })

/-- The context that an expression stands for outside of collaborators. -/
def contextAtTop (a : Analysis String τ (Notebook τ)) (x : ContextExpr) : Context String :=
  let f := a.world.shared.top
  x.eval f.name a.engine.settings.callDepth.toNat f.context

/-- Take out what was noted down so far, earliest first. -/
def takeEntries (a : Analysis String τ (Notebook τ)) :
    List (Entry τ) × Analysis String τ (Notebook τ) :=
  let nb := a.world.shared
  (nb.entries.reverse, { a with world := { a.world with shared := { nb with entries := [] } } })

end ValueFlow.Script
