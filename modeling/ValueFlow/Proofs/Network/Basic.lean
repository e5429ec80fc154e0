import Mathlib.Data.Set.Basic
import ValueFlow.Engine.Analysis

/-!
# Networks

A network is the simplest language that can be analysed: every entity is a single value without
contexts, and all that is said of it is which tokens enter there, which of them it keeps, and into
which entities it flows.

* `Network.Reachable`: which entities matter;
* `Network.Solves`: the equations that their values have to satisfy;
* `Network.semantics`: what is done when an entity is discovered.
-/

namespace ValueFlow

/-- **A network of entities.** -/
structure Network (ε τ : Type) [Ordered τ] where
  /-- which entities flow into which -/
  edges : List (ε × ε)
  /-- the tokens that enter at an entity -/
  seeds : ε → TokenSet τ
  /-- which tokens an entity keeps; without a rule it keeps all -/
  rule? : ε → Option (τ → Bool)
  /-- whether the successors of an entity are left to the next round -/
  postponed : ε → Bool

namespace Network

variable {ε τ σ : Type} [Ordered τ]

/-! ## 1. What is to come out -/

/-- The entities that are reached from the roots. -/
inductive Reachable (p : Network ε τ) (roots : List ε) : ε → Prop where
  | root {v : ε} : v ∈ roots → Reachable p roots v
  | edge {u v : ε} : Reachable p roots u → (u, v) ∈ p.edges → Reachable p roots v

/-- The entity keeps the token. -/
def Admits (p : Network ε τ) (v : ε) (t : τ) : Prop := ∀ rule, p.rule? v = some rule → rule t = true

/-- **The equations of a network**: what an entity that is reached has is what it keeps of its own
tokens and of those of its predecessors that are reached; others have nothing. -/
def Solves (p : Network ε τ) (roots : List ε) (X : ε → Set τ) : Prop :=
  ∀ v, X v = { t | p.Reachable roots v ∧ p.Admits v t ∧
    (t ∈ p.seeds v ∨ ∃ u, (u, v) ∈ p.edges ∧ p.Reachable roots u ∧ t ∈ X u) }

/-! ## 2. What is done for an entity -/

/-- The filter that keeps the tokens of a rule, whatever collaborators know. -/
def keeping (rule : τ → Bool) : Filter σ τ := fun _ tokens => tokens.filter rule

/-- Go on with an answer, or fail with the failure that came instead. -/
def orFail {α : Type} (next : α → Routine ε τ σ) : Except Failure α → Routine ε τ σ
  | .error e => .fail e
  | .ok a => next a

/-- Find the entities one after the other, and link `n` to the node of each. -/
def connect (n : NodeId) : List ε → Routine ε τ σ
  | [] => .done
  | v :: vs =>
    .instantiate v .empty <| orFail fun
      | none => .fail (.collaborator "entity without variant")
      | some id => .observe fun view =>
        match (view.variants.get? id).bind fun x => x.layout.node? with
        | none => .fail (.collaborator "variant without node")
        | some m => .link n m <| orFail fun _ => connect n vs

variable [DecidableEq ε] (p : Network ε τ)

/-- The entities that `v` flows into, in the order of the edges. -/
def successors (v : ε) : List ε := (p.edges.filter fun e => e.1 = v).map Prod.snd

/-- Connect an entity with its successors, now or in the next round. -/
def spread (v : ε) (n : NodeId) : Routine ε τ σ :=
  if p.postponed v then .postpone (connect n (p.successors v)) fun _ => .done
  else connect n (p.successors v)

/-- Let the tokens of an entity enter, then look at its successors. -/
def fill (v : ε) (n : NodeId) : Routine ε τ σ :=
  .deliver n (p.seeds v) <| orFail fun _ => p.spread v n

/-- Put up the rule of an entity, if there is one, before any token comes. -/
def setUp (v : ε) (n : NodeId) : Routine ε τ σ :=
  match p.rule? v with
  | none => p.fill v n
  | some rule => .setFilter n (keeping rule) <| orFail fun _ => p.fill v n

/-- **What is done when a variant is created.** -/
def discover (id : VariantId) : Routine ε τ σ :=
  .observe fun view =>
    match view.variants.get? id with
    | none => .fail (.collaborator "unknown variant")
    | some x =>
      match x.layout.node? with
      | none => .fail (.collaborator "variant without node")
      | some n => p.setUp x.entity n

/-- **Networks as a language**: one node for every entity, whatever the context. -/
def semantics : Semantics ε τ σ where
  shape _ := .value
  sensitivity _ := .insensitive
  discover := p.discover

/-- The analysis with the network as its language. -/
def install (a : Analysis ε τ σ) : Analysis ε τ σ :=
  { a with world := { a.world with engine :=
    { a.world.engine with semantics := some p.semantics } } }

end Network

end ValueFlow
