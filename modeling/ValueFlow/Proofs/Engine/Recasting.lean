import ValueFlow.Proofs.Engine.Notes
import ValueFlow.Proofs.Types.Growth
import ValueFlow.Types.Manager

/-!
# The same engine with another registry

What a reset leaves behind of a run is the registry of types and objects, and the pool that indices
were taken from. So a second run meets an engine that differs from the first one in these alone.
Here is what that does to single requests: nothing, as far as the registry gives the same answers.

* `Note.Agrees`: a request for a filter, or an application of one, that a given registry would
  answer in the same way;
* `Routine.Typed`: collaborators that use the registry only to declare types and to allocate
  objects;
* `World.recast`, `Replays`: the same engine with another pool and registry, and what comes again of
  it there.
-/

namespace ValueFlow

/-! ## 1. Filters that answer alike -/

section Screenings

variable {φ τ : Type} [Ordered τ] {sieve sieve' : φ → TokenSet τ → TokenSet τ}
  {g : Graph φ τ} {f : Flow φ τ} {n : NodeId} {tokens : TokenSet τ}

namespace Flow

end Flow

end Screenings

/-- **A registry would have answered in the same way.** A filter may look at all that a registry
knows, so it has to answer alike for all registries with the same types and objects. -/
def Note.Agrees (r : TypeRegistry) : Note Symbol TypeRegistry → Prop
  | .sought type shared => shared.typeId? type = r.typeId? type
  | .sieved filter tokens shared =>
    ∀ s : TypeRegistry, s.Alike r → filter shared tokens = filter s tokens
  | _ => True

/-! ## 2. Collaborators that use the registry -/

variable {ε : Type}

/-- The token manager of a registry that collaborators share and nothing else. -/
def TypeRegistry.sharedManager : TokenManager TypeRegistry Symbol :=
  TypeRegistry.manager (fun r => r) fun r _ => r

/-- Declare a type and go on with its number. -/
def Routine.declare (name : String) (supertypes : List String)
    (next : Nat → Routine ε Symbol TypeRegistry) : Routine ε Symbol TypeRegistry :=
  .consult fun r => .replace (r.declare name supertypes).2 (next (r.declare name supertypes).1)

/-- Allocate the object of a site and go on with its symbol. -/
def Routine.allocate (type site : String) (next : Symbol → Routine ε Symbol TypeRegistry) :
    Routine ε Symbol TypeRegistry :=
  .consult fun r => .replace (r.object type site).2 (next (r.object type site).1)

/-- **A routine that may do all but two things**: it uses the registry only to declare types and to
allocate objects, and it does not look at the pool of indices. -/
inductive Routine.Typed : Routine ε Symbol TypeRegistry → Prop where
  | done : Typed .done
  | fail (e : Failure) : Typed (.fail e)
  | instantiate (entity : ε) (c : Context ε) {next} (hnext : ∀ answer, Typed (next answer)) :
      Typed (.instantiate entity c next)
  | find (entity : ε) (c : Context ε) {next} (hnext : ∀ answer, Typed (next answer)) :
      Typed (.find entity c next)
  | addNode {next} (hnext : ∀ n, Typed (next n)) : Typed (.addNode next)
  | link (source target : NodeId) {next} (hnext : ∀ answer, Typed (next answer)) :
      Typed (.link source target next)
  | deliver (n : NodeId) (tokens : TokenSet Symbol) {next} (hnext : ∀ answer, Typed (next answer)) :
      Typed (.deliver n tokens next)
  | offer (n : NodeId) (tokens : TokenSet Symbol) {next} (hnext : ∀ answer, Typed (next answer)) :
      Typed (.offer n tokens next)
  | setFilter (n : NodeId) (f : Filter TypeRegistry Symbol) {next}
      (hnext : ∀ answer, Typed (next answer)) : Typed (.setFilter n f next)
  | filterByType (n : NodeId) (type : String) {next} (hnext : ∀ answer, Typed (next answer)) :
      Typed (.filterByType n type next)
  | listen (n : NodeId) {react next} (hreact : ∀ m tokens, Typed (react m tokens))
      (hnext : ∀ answer, Typed (next answer)) : Typed (.listen n react next)
  | postpone {task next} (htask : Typed task) (hnext : ∀ id, Typed (next id)) :
      Typed (.postpone task next)
  | round {next} (hnext : ∀ answer, Typed (next answer)) : Typed (.round next)
  | condense {next} (hnext : ∀ report, Typed (next report)) : Typed (.condense next)
  | condenseIfDue {next} (hnext : ∀ report, Typed (next report)) : Typed (.condenseIfDue next)
  | reset {next} (hnext : Typed next) : Typed (.reset next)
  | observe {next}
      (hblind : ∀ view pool, next { view with variants := { view.variants with pool } } = next view)
      (hnext : ∀ view, Typed (next view)) : Typed (.observe next)
  | setActive (active : Bool) {next} (hnext : Typed next) : Typed (.setActive active next)
  | declare (name : String) (supertypes : List String) {next} (hnext : ∀ id, Typed (next id)) :
      Typed (.declare name supertypes next)
  | allocate (type site : String) {next} (hnext : ∀ symbol, Typed (next symbol)) :
      Typed (.allocate type site next)

/-- **All collaborators are of this kind**, and the token manager is that of the registry. -/
structure Staff.Typed (s : Staff ε Symbol TypeRegistry) : Prop where
  listeners : ∀ {i : Nat} {react}, s.listeners[i]? = some react →
    ∀ n tokens, (react n tokens).Typed
  tasks : ∀ {id task}, s.tasks.get? id = some task → task.Typed
  semantics : ∀ {language}, s.semantics = some language → ∀ id, (language.discover id).Typed
  manager : s.tokenManager = some TypeRegistry.sharedManager

/-- The routines that a request hands over are of this kind. -/
def Request.Typed : Request ε Symbol TypeRegistry → Prop
  | .listen _ react => ∀ m tokens, (react m tokens).Typed
  | .postpone task => task.Typed
  | _ => True

theorem Staff.Typed.perform {w : World ε Symbol TypeRegistry} {q : Request ε Symbol TypeRegistry}
    (h : w.staff.Typed) (hq : q.Typed) : (q.perform w).staff.Typed := by
  rcases q.staff_perform w with e | ⟨n, react, rfl, e⟩ | ⟨task, rfl, e⟩ | ⟨-, e⟩ | ⟨-, e⟩ <;> rw [e]
  · exact h
  · refine ⟨fun {i r} hr => ?_, h.tasks, h.semantics, h.manager⟩
    rw [Array.getElem?_push] at hr
    split at hr
    · cases hr
      exact hq
    · exact h.listeners hr
  · refine ⟨h.listeners, fun {id r} hr => ?_, h.semantics, h.manager⟩
    rw [Table.get?_set] at hr
    split at hr
    · cases hr
      exact hq
    · exact h.tasks hr
  · exact ⟨h.listeners, h.tasks, h.semantics, h.manager⟩
  · exact ⟨fun hr => (by cases hr), fun hr => (by cases hr), h.semantics, h.manager⟩

/-! ## 3. Another pool and another registry -/

/-- **The same engine with another pool and another registry.** -/
def World.recast (w : World ε Symbol TypeRegistry) (pool : IndexPool ε) (r : TypeRegistry) :
    World ε Symbol TypeRegistry :=
  { w with
    engine := { w.engine with variants := { w.engine.variants with pool } }
    shared := r }

/-- **What comes again.** The function leads from one world to another, and there the registry has
only learned. With any registry that knows what it knew at the end, and would have given the answers
that were noted, the function does the same, and the registry learns nothing. -/
structure Replays {α : Type}
    (f : World ε Symbol TypeRegistry → Option (α × World ε Symbol TypeRegistry))
    (w : World ε Symbol TypeRegistry) (log : List (Note Symbol TypeRegistry)) (a : α)
    (w' : World ε Symbol TypeRegistry) : Prop where
  typed : w'.staff.Typed
  grows : w.shared.Grows w'.shared
  again : ∀ {final : TypeRegistry}, w'.shared.Grows final → (∀ note ∈ log, note.Agrees final) →
    ∀ pool r, r.Alike final →
      ∃ pool' r', r'.Alike final ∧ f (w.recast pool r) = some (a, w'.recast pool' r')

namespace Replays

variable {α β : Type} {f : World ε Symbol TypeRegistry → Option (α × World ε Symbol TypeRegistry)}
  {w w₁ w₂ : World ε Symbol TypeRegistry} {log log' : List (Note Symbol TypeRegistry)} {a : α}
  {b : β}

theorem pure (h : w.staff.Typed) (a : α) : Replays (fun w => some (a, w)) w [] a w :=
  ⟨h, .refl _, fun _ _ pool r hr => ⟨pool, r, hr, rfl⟩⟩

/-- One thing after another. -/
theorem bind {g : α → World ε Symbol TypeRegistry → Option (β × World ε Symbol TypeRegistry)}
    (h : Replays f w log a w₁) (h' : Replays (g a) w₁ log' b w₂) :
    Replays (fun w => (f w).bind fun (a, w) => g a w) w (log ++ log') b w₂ where
  typed := h'.typed
  grows := h.grows.trans h'.grows
  again := by
    intro final hfinal hlog pool r hr
    obtain ⟨pool₁, r₁, hr₁, h₁⟩ := h.again (h'.grows.trans hfinal)
      (fun note hnote => hlog note (List.mem_append_left _ hnote)) pool r hr
    obtain ⟨pool₂, r₂, hr₂, h₂⟩ := h'.again hfinal
      (fun note hnote => hlog note (List.mem_append_right _ hnote)) pool₁ r₁ hr₁
    refine ⟨pool₂, r₂, hr₂, ?_⟩
    rw [h₁]
    exact h₂

/-- A function that does the same comes again. -/
theorem congr {g : World ε Symbol TypeRegistry → Option (α × World ε Symbol TypeRegistry)}
    (h : Replays f w log a w₁) (hfg : ∀ pool r, g (w.recast pool r) = f (w.recast pool r)) :
    Replays g w log a w₁ where
  typed := h.typed
  grows := h.grows
  again := by
    intro final hfinal hlog pool r hr
    rw [hfg]
    exact h.again hfinal hlog pool r hr

/-- Something before that does not look at the registry, and something after. -/
theorem map {x : World ε Symbol TypeRegistry → Option (β × World ε Symbol TypeRegistry)}
    {g : β × World ε Symbol TypeRegistry → α × World ε Symbol TypeRegistry}
    (h : Replays x w₁ log b w₂) (hshared : w₁.shared = w.shared)
    (hf : ∀ pool r, ∃ pool₁, f (w.recast pool r) = (x (w₁.recast pool₁ r)).map g)
    (htyped : (g (b, w₂)).2.staff.Typed) (hg : (g (b, w₂)).2.shared = w₂.shared)
    (hcommutes : ∀ pool r, g (b, w₂.recast pool r) =
      ((g (b, w₂)).1, (g (b, w₂)).2.recast pool r)) :
    Replays f w log (g (b, w₂)).1 (g (b, w₂)).2 where
  typed := htyped
  grows := by
    rw [hg, ← hshared]
    exact h.grows
  again := by
    intro final hfinal hlog pool r hr
    obtain ⟨pool₁, hfw⟩ := hf pool r
    obtain ⟨pool₂, r₂, hr₂, hx⟩ := h.again (hg ▸ hfinal) hlog pool₁ r hr
    refine ⟨pool₂, r₂, hr₂, ?_⟩
    rw [hfw, hx, Option.map_some, hcommutes]

/-- A request comes again that teaches the registry nothing, if its filters answer alike. -/
theorem ask {q : Request ε Symbol TypeRegistry}
    {g : World ε Symbol TypeRegistry → α × World ε Symbol TypeRegistry}
    (hperform : (g w).2 = q.perform w) (h : w.staff.Typed) (hq : q.Typed)
    (hshared : (q.perform w).shared = w.shared)
    (hg : ∀ {final : TypeRegistry}, (∀ note ∈ q.notes w, note.Agrees final) →
      ∀ pool r, r.Alike final → ∃ pool', g (w.recast pool r) = ((g w).1, (g w).2.recast pool' r)) :
    Replays (fun w => some (g w)) w (q.notes w) (g w).1 (g w).2 where
  typed := hperform ▸ h.perform hq
  grows := .of_eq (hperform ▸ hshared)
  again := by
    intro final _ hlog pool r hr
    obtain ⟨pool', e⟩ := hg hlog pool r hr
    exact ⟨pool', r, hr, congrArg some e⟩

end Replays

/-! ## 4. Requests -/

namespace World

variable {w : World ε Symbol TypeRegistry}

end World

end ValueFlow
