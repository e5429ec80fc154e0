/-!
# Contexts

Under which circumstances an entity is looked at: the root the exploration started from, the calls
that led here, the program point, and the allocation site of the receiver. How much of it matters
is told by a sensitivity.

* `pushCall` (`push_call`), `popCall` (`pop_call`), `atPoint` (`with_program_point`), `atSite`
  (`with_allocation_site`): contexts from others;
* `project`: the part of a context that a sensitivity tells apart.
-/

namespace ValueFlow

/-- **Which parts of a context tell two variants of an entity apart.** -/
structure Sensitivity where
  entry : Bool := false
  calls : Bool := false
  point : Bool := false
  site : Bool := false
  deriving DecidableEq, Repr

namespace Sensitivity

/-- one variant per entity -/
def insensitive : Sensitivity := {}

/-- told apart by the calls -/
def callString : Sensitivity := { calls := true }

/-- told apart by the receiver -/
def object : Sensitivity := { site := true }

/-- told apart by everything -/
def full : Sensitivity := { entry := true, calls := true, point := true, site := true }

instance : Inhabited Sensitivity := ⟨full⟩

end Sensitivity

/-- **The circumstances under which an entity is looked at.** -/
structure Context (ε : Type) where
  entry : Option ε := none
  /-- the calls, the innermost last -/
  calls : List ε := []
  point : Option ε := none
  site : Option ε := none
  deriving DecidableEq, Repr, Inhabited

namespace Context

variable {ε : Type}

def empty : Context ε := {}

/-- The context in which a root is entered. -/
def forEntry (root : ε) : Context ε := { entry := some root, calls := [root] }

/-- Enter a call and keep the `limit` innermost ones; zero keeps all. -/
def pushCall (c : Context ε) (call : ε) (limit : Nat) : Context ε :=
  let calls := c.calls ++ [call]
  { c with calls := if limit = 0 then calls else calls.drop (calls.length - limit) }

/-- Leave the innermost call. -/
def popCall (c : Context ε) : Context ε := { c with calls := c.calls.dropLast }

def atPoint (c : Context ε) (point : ε) : Context ε := { c with point := some point }

def atSite (c : Context ε) (site : ε) : Context ε := { c with site := some site }

/-- **Keep only what the sensitivity names.** -/
def project (c : Context ε) (s : Sensitivity) : Context ε where
  entry := if s.entry then c.entry else none
  calls := if s.calls then c.calls else []
  point := if s.point then c.point else none
  site := if s.site then c.site else none

def depth (c : Context ε) : Nat := c.calls.length

end Context

end ValueFlow
