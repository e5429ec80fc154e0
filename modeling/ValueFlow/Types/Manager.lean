import ValueFlow.Engine.Routine
import ValueFlow.Types.Registry

/-!
# The registry as a token manager

A type registry that the collaborators keep somewhere in the state they share (`TypedTokenManager`
as a `TokenManager`, with `type_filter` and `reset`).
-/

namespace ValueFlow

/-- **The token manager of a registry** that `get` finds in the shared state and `put` puts back.
Its filters look into the registry that is there when they are applied. -/
def TypeRegistry.manager {σ : Type} (get : σ → TypeRegistry) (put : TypeRegistry → σ → σ) :
    TokenManager σ Symbol where
  typeFilter name s :=
    let (f, r) := (get s).typeFilter name
    (f.map fun f => fun s tokens => (get s).applyFilter f tokens, put r s)
  forget s := put (get s).reset s

end ValueFlow
