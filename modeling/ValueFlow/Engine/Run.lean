import ValueFlow.Engine.World

/-!
# Running collaborators

Requests that make collaborators run: creating a variant runs its discovery, a round runs listeners
and postponed work. Collaborators may make such requests themselves, so running them nests.

`Routine.runWith` runs one routine when it is known how to run the ones it gives rise to, and
`World.run` ties the knot. Nothing bounds how deep collaborators nest: a language with unbounded
contexts can go on forever. So `World.run` takes the depth it may reach, and answers `none` if that
is not enough. A larger depth never changes an answer.

* `instantiate` (`select`): the variant of an entity, which is created and discovered if need be;
* `execute`, `round` (`drain_round`): one item of work, and all that are queued.
-/

namespace ValueFlow

/-- What comes of a request: an answer or a failure, and the world after it. -/
abbrev Outcome (ε τ σ α : Type) [Ordered τ] := Except Failure α × World ε τ σ

/-- A way to run routines; `none` if it gives up. -/
abbrev Runner (ε τ σ : Type) [Ordered τ] := Routine ε τ σ → World ε τ σ → Option (Outcome ε τ σ Unit)

namespace World

variable {ε τ σ : Type} [Ordered τ] [DecidableEq ε]
variable (run : Runner ε τ σ)

/-! ## 1. Variants -/

/-- **The variant of an entity in a context.** It is registered before its discovery runs, so a
discovery that comes back to it finds it. On a stable engine none is created. -/
def instantiate (entity : ε) (c : Context ε) (w : World ε τ σ) :
    Option (Outcome ε τ σ (Option VariantId)) :=
  match w.engine.semantics with
  | none => some (.error (.unconfigured .semantics), w)
  | some s =>
    let c := c.project (s.sensitivity entity)
    match w.engine.variants.find? entity c with
    | some id => some (.ok (some id), w)
    | none =>
      if w.engine.isStable then some (.ok none, w)
      else
        let (id, w) := w.create entity c (s.shape entity)
        match run (s.discover id) w with
        | none => none
        | some (.ok _, w) => some (.ok (some id), w)
        | some (.error e, w) => some (.error e, w)

/-! ## 2. Work items -/

/-- Take the tokens of an item off the agenda. -/
def collect (w : World ε τ σ) (item : WorkItem) : Option (TokenSet τ) × World ε τ σ :=
  let (delta, agenda) := w.flow.agenda.collect item
  (delta, w.setFlow { w.flow with agenda })

/-- **Execute one item**; answers whether there was anything to do. A listener that fails gets its
tokens again, a task that fails does not run again. -/
def execute (item : WorkItem) (w : World ε τ σ) : Option (Outcome ε τ σ Bool) :=
  match item with
  | .send n =>
    match w.collect item with
    | (none, w) => some (.ok false, w)
    | (some tokens, w) => some (.ok true, w.setFlow (w.flow.deliver w.sieve n tokens).2)
  | .notify n l =>
    match w.collect item with
    | (none, w) => some (.ok false, w)
    | (some tokens, w) =>
      match w.engine.listeners[l.index]? with
      | none => some (.error (.usage (.unknownListener l)), w)
      | some react =>
        match run (react n tokens) w with
        | none => none
        | some (.ok _, w) => some (.ok true, w)
        | some (.error e, w) =>
          let agenda := (w.flow.agenda.post item tokens).2
          some (.error e, w.setFlow { w.flow with agenda })
  | .task id =>
    match w.engine.tasks.get? id with
    | none => some (.ok false, w)
    | some task =>
      match run task { w with engine := { w.engine with tasks := w.engine.tasks.erase id } } with
      | none => none
      | some (.ok _, w) => some (.ok true, w)
      | some (.error e, w) => some (.error e, w)

/-! ## 3. Rounds -/

/-- How far a bag was worked off: what is left, how many items had anything to do, and the failure
that stopped it. -/
structure Progress where
  bag : Bag WorkItem
  executed : Nat
  failure : Option Failure

/-- Execute at most `count` items of a bag, up to the first failure. -/
def executeBag : Nat → Bag WorkItem → Nat → World ε τ σ → Option (Progress × World ε τ σ)
  | 0, bag, executed, w => some (⟨bag, executed, none⟩, w)
  | count + 1, bag, executed, w =>
    match bag.take with
    | (none, bag) => some (⟨bag, executed, none⟩, w)
    | (some item, bag) =>
      match execute run item w with
      | none => none
      | some (.ok did, w) => executeBag count bag (if did then executed + 1 else executed) w
      | some (.error e, w) => some (⟨bag, executed, some e⟩, w)

/-- Count the work of a round, and put back what a failure left over. -/
def finishRound (p : Progress) (w : World ε τ σ) : Outcome ε τ σ (Option Nat) :=
  let e := w.engine
  let w := { w with engine :=
    { e with
      workSincePass := e.workSincePass + p.executed
      stats := { e.stats with work := e.stats.work + p.executed } } }
  match p.failure with
  | none => (.ok (some p.executed), w)
  | some failure => (.error failure, w.setFlow { w.flow with agenda := w.flow.agenda.putBack p.bag })

/-- **A round**: execute the items that are queued now; answers how many of them had anything to
do, and nothing if none is queued. -/
def round (w : World ε τ σ) : Option (Outcome ε τ σ (Option Nat)) :=
  match w.flow.agenda.startRound with
  | none => some (.ok none, w)
  | some (bag, agenda) =>
    let e := w.engine
    let w := { w with engine :=
      { e with
        flow := { e.flow with agenda }
        stats := { e.stats with rounds := e.stats.rounds + 1 } } }
    (executeBag run bag.size bag 0 w).map fun (p, w) => finishRound p w

end World

/-! ## 4. Routines -/

variable {ε τ σ : Type} [Ordered τ] [DecidableEq ε]

/-- **Run a routine**, given how to run those that it gives rise to. -/
def Routine.runWith (run : Runner ε τ σ) : Routine ε τ σ → World ε τ σ → Option (Outcome ε τ σ Unit)
  | .done, w => some (.ok (), w)
  | .fail e, w => some (.error e, w)
  | .instantiate entity c next, w =>
    match World.instantiate run entity c w with
    | none => none
    | some (answer, w) => (next answer).runWith run w
  | .find entity c next, w => (next (w.engine.find? entity c)).runWith run w
  | .addNode next, w =>
    let (n, w) := w.addNode
    (next n).runWith run w
  | .link source target next, w =>
    let (answer, w) := w.link source target
    (next answer).runWith run w
  | .deliver n tokens next, w =>
    let (answer, w) := w.deliver n tokens
    (next answer).runWith run w
  | .offer n tokens next, w =>
    let (answer, w) := w.offer n tokens
    (next answer).runWith run w
  | .setFilter n f next, w =>
    let (answer, w) := w.setFilter n f
    (next answer).runWith run w
  | .filterByType n type next, w =>
    let (answer, w) := w.filterByType n type
    (next answer).runWith run w
  | .listen n react next, w =>
    let (answer, w) := w.listen n react
    (next answer).runWith run w
  | .postpone task next, w =>
    let (id, w) := w.postpone task
    (next id).runWith run w
  | .round next, w =>
    match World.round run w with
    | none => none
    | some (answer, w) => (next answer).runWith run w
  | .condense next, w =>
    let (report, w) := w.condense
    (next report).runWith run w
  | .condenseIfDue next, w =>
    let (report, w) := w.condenseIfDue
    (next report).runWith run w
  | .reset next, w => next.runWith run { w with engine := w.engine.reset }
  | .observe next, w => (next w.engine.toView).runWith run w
  | .consult next, w => (next w.shared).runWith run w
  | .replace shared next, w => next.runWith run { w with shared }
  | .setActive active next, w => next.runWith run { w with active }

/-- **Run a routine**, nesting at most `depth` deep. -/
def World.run : Nat → Runner ε τ σ
  | 0, _, _ => none
  | depth + 1, r, w => r.runWith (World.run depth) w

end ValueFlow
