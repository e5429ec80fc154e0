import ValueFlow.Engine.Analysis
import ValueFlow.Filter
import ValueFlow.Types.Registry

/-!
# Scripts

A small language in which collaborators are written down: for every entity its shape, its
sensitivity, and the actions of its discovery. Entities are texts.

* `ContextExpr`, `NodeRef`, `TokenExpr`: what actions are about;
* `Action`: one thing to do, with the bodies of listeners and postponed work inside it;
* `Frame`: what an action finds around it;
* `Entry`, `Notebook`: what scripts share and what they note down.
-/

namespace ValueFlow.Script

/-! ## 1. Names and contexts -/

/-- Put `text` for every `$t`. -/
def fillIn (text : List Char) : List Char → List Char
  | '$' :: 't' :: rest => text ++ fillIn text rest
  | c :: rest => c :: fillIn text rest
  | [] => []

inductive ContextBase where
  | empty
  | entry (root : String)
  /-- the context of the frame -/
  | current
  deriving DecidableEq, Repr

inductive ContextStep where
  /-- enter a call, limited as the settings say -/
  | push (call : String)
  | pushLimited (call : String) (limit : Nat)
  | pop
  | point (where_ : String)
  | site (where_ : String)
  | project (s : Sensitivity)
  deriving DecidableEq, Repr

/-- **A context**, built up step by step. -/
structure ContextExpr where
  base : ContextBase
  steps : List ContextStep
  deriving DecidableEq, Repr

def ContextStep.apply (name : String → String) (limit : Nat) (c : Context String) :
    ContextStep → Context String
  | .push call => c.pushCall (name call) limit
  | .pushLimited call k => c.pushCall (name call) k
  | .pop => c.popCall
  | .point p => c.atPoint (name p)
  | .site s => c.atSite (name s)
  | .project s => c.project s

/-- The context that an expression stands for, where `current` is the frame's, `limit` the limit on
calls, and `name` completes names. -/
def ContextExpr.eval (name : String → String) (limit : Nat) (current : Context String)
    (x : ContextExpr) : Context String :=
  let base := match x.base with
    | .empty => .empty
    | .entry root => .forEntry (name root)
    | .current => current
  x.steps.foldl (ContextStep.apply name limit) base

/-! ## 2. Actions -/

/-- Which node of a variant. -/
inductive Part where
  | value
  | parameter (position : Nat)
  | receiver
  | result
  | thrown
  deriving DecidableEq, Repr

def Part.of? (v : Variant String) : Part → Option NodeId
  | .value => v.layout.node?
  | .parameter i => v.layout.parameter? i
  | .receiver => v.layout.receiver?
  | .result => v.layout.result?
  | .thrown => v.layout.thrown?

/-- How a node is referred to. -/
inductive NodeRef where
  | handle (n : NodeId)
  /-- the node that was notified -/
  | notified
  | named (name : String)
  /-- a node of the variant that is being discovered -/
  | own (part : Part)
  /-- a node of the variant of an entity, which is created if need be -/
  | ofEntity (entity : String) (context : ContextExpr) (part : Part)
  deriving DecidableEq, Repr

inductive TokenExpr (τ : Type) where
  | literal (tokens : List τ)
  /-- the tokens that were received -/
  | received
  /-- the token at hand -/
  | atHand
  deriving DecidableEq, Repr

/-- **One thing to do.** -/
inductive Action (τ : Type) where
  | addNode (name : String)
  | link (source target : NodeRef)
  | deliver (node : NodeRef) (tokens : TokenExpr τ)
  | offer (node : NodeRef) (tokens : TokenExpr τ)
  | setFilter (node : NodeRef) (rule : FilterRule τ)
  | filterByType (node : NodeRef) (type : String)
  /-- allocate an object of a class that the environment knows, and deliver it -/
  | allocate (type : String) (node : NodeRef) (site : String)
  | listen (node : NodeRef) (tag : String) (body : List (Action τ))
  | postpone (tag : String) (body : List (Action τ))
  | instantiate (entity : String) (context : ContextExpr)
  | find (entity : String) (context : ContextExpr)
  /-- look at the tokens of a node -/
  | inspect (node : NodeRef)
  /-- take each received token at hand in turn -/
  | forEach (body : List (Action τ))
  | fail (text : String)
  | misuse (text : String)
  /-- fail the first time that the text is used -/
  | failOnce (text : String)
  | condense
  | condenseIfDue
  | round
  | reset
  | setActive (active : Bool)

/-- What is written down for an entity. -/
structure EntityScript (τ : Type) where
  shape : Shape := .value
  sensitivity : Sensitivity := .full
  body : List (Action τ) := []

/-- Entities with their scripts; the others are single values with nothing to discover. -/
abbrev Program (τ : Type) := Table String (EntityScript τ)

def Program.script {τ : Type} (p : Program τ) (entity : String) : EntityScript τ :=
  (p.get? entity).getD {}

/-! ## 3. State -/

/-- **What an action finds around it.** -/
structure Frame (τ : Type) [Ordered τ] where
  /-- the variant that is being discovered -/
  variant : Option VariantId := none
  context : Context String := .empty
  bindings : Table String NodeId := ∅
  /-- the node that was notified -/
  notified : Option NodeId := none
  /-- the tokens that were received -/
  received : TokenSet τ := ∅
  /-- the token at hand -/
  atHand : Option τ := none

/-- **What is noted down** of an action that succeeded, or of a body that starts. -/
inductive Entry (τ : Type) [Ordered τ] where
  | discovering (variant : VariantId) (entity : String)
  | notified (tag : String) (node : NodeId) (tokens : TokenSet τ)
  | started (tag : String)
  | addedNode (node : NodeId)
  | linked (source target : NodeId) (fresh : Bool)
  | delivered (node : NodeId) (grew : Bool)
  | offered (node : NodeId) (any : Bool)
  | filtered (node : NodeId)
  | filteredByType (node : NodeId) (known : Bool)
  | allocated (node : NodeId) (symbol : Symbol) (grew : Bool)
  | listening (node : NodeId) (listener : ListenerId)
  | postponed (task : TaskId)
  | instantiated (entity : String) (variant : Option VariantId)
  | found (entity : String) (variant : Option VariantId)
  | inspected (node : NodeId) (tokens : Option (TokenSet τ))
  | condensed (report : CondenseReport)
  | condensedIfDue (report : Option CondenseReport)
  | didRound (executed : Option Nat)
  | wasReset
  | setActive (active : Bool)

/-- **What scripts share.** -/
structure Notebook (τ : Type) [Ordered τ] where
  types : TypeRegistry := .empty
  /-- what was noted down, latest first -/
  entries : List (Entry τ) := []
  /-- the texts that `failOnce` has used -/
  spent : List String := []
  /-- the frame of actions that belong to no collaborator -/
  top : Frame τ := {}

end ValueFlow.Script
