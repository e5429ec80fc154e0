import ValueFlow.Flow.Basic

/-!
# Fusing components

Components whose nodes lie on a common cycle end up with the same tokens, so they are made one. The
smallest handle becomes the representative and holds the union. The work that waited for the parts
waits for the whole, less what the union covers, and each part passes on the tokens that are new to
it (`collapse`).
-/

namespace ValueFlow.Flow

variable {φ τ : Type} [Ordered τ]

/-- A component before it is fused: its nodes and its tokens. -/
structure Part (τ : Type) [Ordered τ] where
  members : List NodeId
  tokens : TokenSet τ

/-- The graph after the components of `reps` became one, led by `target`. -/
def joined (g : Graph φ τ) (reps : List NodeId) (target : NodeId) (parts : List (Part τ)) :
    Graph φ τ :=
  let members := parts.flatMap Part.members
  let tokens := parts.foldl (fun all p => all ∪ p.tokens) ∅
  let g := reps.foldl (fun g r => g.modify r fun v => { v with tokens := ∅, members := [] }) g
  let g := members.foldl
    (fun g m => g.modify m fun v => { v with representative := target, fused := true }) g
  g.modify target fun v => { v with tokens, members }

/-- Move the tokens that wait for `r` to `target`. -/
def reroute (g : Graph φ τ) (target : NodeId) (a : Agenda τ) (r : NodeId) : Agenda τ :=
  match a.withdraw (.send r) with
  | (none, a) => a
  | (some waiting, a) => (g.offer a target waiting).2

/-- Pass on, from every node of a part, the tokens that the part did not have. -/
def catchUp (g : Graph φ τ) (all : TokenSet τ) (a : Agenda τ) (p : Part τ) : Agenda τ :=
  let news := all \ p.tokens
  if news.isEmpty then a else p.members.foldl (fun a m => g.forward a m news) a

/-- **Fuse the components of the given representatives.** -/
def fuse (f : Flow φ τ) : List NodeId → Flow φ τ
  | [] => f
  | [_] => f
  | r :: rs =>
    let reps := r :: rs
    let target := rs.foldl NodeId.min r
    let parts := reps.map fun r => ⟨f.graph.component r, f.graph.stored r⟩
    let all := parts.foldl (fun all p => all ∪ p.tokens) ∅
    let graph := joined f.graph reps target parts
    let agenda := reps.foldl (reroute graph target) f.agenda
    { graph, agenda := parts.foldl (catchUp graph all) agenda }

end ValueFlow.Flow
