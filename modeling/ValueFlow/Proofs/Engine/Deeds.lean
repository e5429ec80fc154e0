import ValueFlow.Proofs.Engine.Course

/-!
# The log of a run

Calls nest. A variant that is created runs its discovery before the request for it is answered, and
the discovery may ask for others, for the same one again, or for rounds that run listeners. So
beside each function that runs collaborators stands one that writes down what is done on the way, in
the order in which it is done. These logs are taken from the running functions and do not change
them.

That the log of a run is a course of the engine, up to its end or as far as it got, is proved by one
induction over runs (`World.run_logged`). Everything that is proved of runs by means of their logs
comes from there, and from what single steps do.

* `Routine.deedsWith`, `World.deeds`: the log of a routine;
* `Logged`, `World.run_logged`: it is a course on which only what is allowed is asked for;
* `Upheld`, `Lasting`, `Story.holds`: what single steps uphold holds of all worlds that an engine
  comes to, with what was done since it was new or last reset from outside;
* `World.Reachable`: the worlds that requests of the allowed kinds lead to.
-/

namespace ValueFlow

variable {ε τ σ : Type} [Ordered τ]

/-! ## 1. Writing down -/

/-- A way to write down what is done in routines. -/
abbrev Chronicler (ε τ σ : Type) [Ordered τ] := Routine ε τ σ → World ε τ σ → List (Entry ε τ σ)

namespace World

/-- The end of a discovery, and the answer to the request for its variant. If the engine was reset
on the way there is no such variant any more, and the answer counts for nothing. -/
def discoveredDeeds (entity : ε) (c : Context ε) (id : VariantId) (discovery : List (Entry ε τ σ)) :
    Option (Outcome ε τ σ Unit) → List (Entry ε τ σ)
  | none => []
  | some (.error e, w) => [⟨.discovered id (.error e), w⟩]
  | some (.ok _, w) =>
    ⟨.discovered id (.ok ()), w⟩ ::
      if discovery.any Entry.isReset then [] else [⟨.answer entity c id, w⟩]

/-- The end of a call of a listener. -/
def heardDeeds (n : NodeId) (l : ListenerId) : Option (Outcome ε τ σ Unit) → List (Entry ε τ σ)
  | none => []
  | some (outcome, w) => [⟨.heard n l outcome, w⟩]

variable [DecidableEq ε] (run : Runner ε τ σ) (deeds : Chronicler ε τ σ)

def instantiateDeeds (entity : ε) (c : Context ε) (w : World ε τ σ) : List (Entry ε τ σ) :=
  match w.engine.semantics with
  | none => []
  | some s =>
    let c' := c.project (s.sensitivity entity)
    match w.engine.variants.find? entity c' with
    | some id => [⟨.answer entity c id, w⟩]
    | none =>
      if w.engine.isStable then []
      else
        let (id, w') := w.create entity c' (s.shape entity)
        let discovery := deeds (s.discover id) w'
        ⟨.discover id entity c', w⟩ ::
          (discovery ++ discoveredDeeds entity c id discovery (run (s.discover id) w'))

omit [DecidableEq ε] in
def executeDeeds (item : WorkItem) (w : World ε τ σ) : List (Entry ε τ σ) :=
  ⟨.execute item, w⟩ ::
    match item with
    | .send _ => []
    | .notify n l =>
      match w.collect item with
      | (none, _) => []
      | (some tokens, w) =>
        match w.engine.listeners[l.index]? with
        | none => []
        | some react => deeds (react n tokens) w ++ heardDeeds n l (run (react n tokens) w)
    | .task id =>
      match w.engine.tasks.get? id with
      | none => []
      | some task => deeds task (w.withoutTask id)

omit [DecidableEq ε] in
def executeBagDeeds : Nat → Bag WorkItem → World ε τ σ → List (Entry ε τ σ)
  | 0, _, _ => []
  | count + 1, bag, w =>
    match bag.take with
    | (none, _) => []
    | (some item, bag) =>
      w.executeDeeds run deeds item ++
        match execute run item w with
        | some (.ok _, w) => executeBagDeeds count bag w
        | _ => []

omit [DecidableEq ε] in
/-- What is done for the items of a round. -/
def roundDeeds (w : World ε τ σ) : List (Entry ε τ σ) :=
  match w.flow.agenda.startRound with
  | none => []
  | some (bag, agenda) => executeBagDeeds run deeds bag.size bag (w.begun agenda)

/-- The end of a round. -/
def endDeeds : Option (Progress × World ε τ σ) → List (Entry ε τ σ)
  | none => []
  | some (p, w) => [⟨.endRound p.executed p.failure, w⟩]

omit [DecidableEq ε] in
/-- A round from its beginning to its end. -/
def roundLog (w : World ε τ σ) : List (Entry ε τ σ) :=
  match w.flow.agenda.startRound with
  | none => []
  | some (bag, agenda) =>
    ⟨.beginRound, w⟩ ::
      (w.roundDeeds run deeds ++ endDeeds (executeBag run bag.size bag 0 (w.begun agenda)))

end World

variable [DecidableEq ε]

/-- **The deeds of a routine**, given those of the routines that it gives rise to. -/
def Routine.deedsWith (run : Runner ε τ σ) (deeds : Chronicler ε τ σ) :
    Routine ε τ σ → World ε τ σ → List (Entry ε τ σ)
  | .done, _ => []
  | .fail _, _ => []
  | .instantiate entity c next, w =>
    w.instantiateDeeds run deeds entity c ++
      match w.instantiate run entity c with
      | none => []
      | some (answer, w) => (next answer).deedsWith run deeds w
  | .find entity c next, w =>
    ⟨.look, w⟩ :: (next (w.engine.find? entity c)).deedsWith run deeds w
  | .addNode next, w =>
    ⟨.ask .addNode, w⟩ :: (next w.addNode.1).deedsWith run deeds w.addNode.2
  | .link source target next, w =>
    let (answer, w') := w.link source target
    ⟨.ask (.link source target), w⟩ :: (next answer).deedsWith run deeds w'
  | .deliver n tokens next, w =>
    let (answer, w') := w.deliver n tokens
    ⟨.ask (.deliver n tokens), w⟩ :: (next answer).deedsWith run deeds w'
  | .offer n tokens next, w =>
    let (answer, w') := w.offer n tokens
    ⟨.ask (.offer n tokens), w⟩ :: (next answer).deedsWith run deeds w'
  | .setFilter n f next, w =>
    let (answer, w') := w.setFilter n f
    ⟨.ask (.setFilter n f), w⟩ :: (next answer).deedsWith run deeds w'
  | .filterByType n type next, w =>
    let (answer, w') := w.filterByType n type
    ⟨.ask (.filterByType n type), w⟩ :: (next answer).deedsWith run deeds w'
  | .listen n react next, w =>
    let (answer, w') := w.listen n react
    ⟨.ask (.listen n react), w⟩ :: (next answer).deedsWith run deeds w'
  | .postpone task next, w =>
    let (id, w') := w.postpone task
    ⟨.ask (.postpone task), w⟩ :: (next id).deedsWith run deeds w'
  | .round next, w =>
    w.roundLog run deeds ++
      match World.round run w with
      | none => []
      | some (answer, w) => (next answer).deedsWith run deeds w
  | .condense next, w =>
    let (report, w') := w.condense
    ⟨.ask .condense, w⟩ :: (next report).deedsWith run deeds w'
  | .condenseIfDue next, w =>
    let (report, w') := w.condenseIfDue
    ⟨.ask .condenseIfDue, w⟩ :: (next report).deedsWith run deeds w'
  | .reset next, w =>
    ⟨.ask .reset, w⟩ :: next.deedsWith run deeds { w with engine := w.engine.reset }
  | .observe next, w => ⟨.look, w⟩ :: (next w.engine.toView).deedsWith run deeds w
  | .consult next, w => ⟨.look, w⟩ :: (next w.shared).deedsWith run deeds w
  | .replace shared next, w =>
    ⟨.ask (.replace shared), w⟩ :: next.deedsWith run deeds { w with shared }
  | .setActive active next, w =>
    ⟨.ask (.setActive active), w⟩ :: next.deedsWith run deeds { w with active }

/-- **The deeds of a routine**, nesting at most `depth` deep. -/
def World.deeds : Nat → Chronicler ε τ σ
  | 0, _, _ => []
  | depth + 1, r, w => r.deedsWith (World.run depth) (World.deeds depth) w

/-! ## 2. What the functions come to -/

namespace World

variable {w : World ε τ σ}

section Instantiating

variable (run : Runner ε τ σ) (deeds : Chronicler ε τ σ) {entity : ε} {c : Context ε}
  {s : Semantics ε τ σ}

theorem instantiate_unconfigured (hs : w.engine.semantics = none) (entity : ε) (c : Context ε) :
    w.instantiate run entity c = some (.error (.unconfigured .semantics), w) := by
  simp only [instantiate, hs]

theorem instantiate_known (hs : w.engine.semantics = some s) {id : VariantId}
    (hfind : w.engine.variants.find? entity (c.project (s.sensitivity entity)) = some id) :
    w.instantiate run entity c = some (.ok (some id), w) := by
  simp only [instantiate, hs, hfind]

theorem instantiate_stable (hs : w.engine.semantics = some s)
    (hfind : w.engine.variants.find? entity (c.project (s.sensitivity entity)) = none)
    (hstable : w.engine.isStable = true) : w.instantiate run entity c = some (.ok none, w) := by
  simp only [instantiate, hs, hfind, hstable, if_true]

/-- A new variant is created, and then its discovery is run. -/
theorem instantiate_new (hs : w.engine.semantics = some s)
    (hfind : w.engine.variants.find? entity (c.project (s.sensitivity entity)) = none)
    (hstable : w.engine.isStable = false) {created : VariantId × World ε τ σ}
    (hcreate : w.create entity (c.project (s.sensitivity entity)) (s.shape entity) = created) :
    w.instantiate run entity c =
      (run (s.discover created.1) created.2).map fun (outcome, w) =>
        (outcome.map fun _ => some created.1, w) := by
  simp only [instantiate, hs, hfind, hstable, hcreate, Bool.false_eq_true, if_false]
  rcases run (s.discover created.1) created.2 with _ | ⟨_ | _, _⟩ <;> rfl

theorem instantiateDeeds_unconfigured (hs : w.engine.semantics = none) (entity : ε)
    (c : Context ε) : w.instantiateDeeds run deeds entity c = [] := by
  simp only [instantiateDeeds, hs]

theorem instantiateDeeds_known (hs : w.engine.semantics = some s) {id : VariantId}
    (hfind : w.engine.variants.find? entity (c.project (s.sensitivity entity)) = some id) :
    w.instantiateDeeds run deeds entity c = [⟨.answer entity c id, w⟩] := by
  simp only [instantiateDeeds, hs, hfind]

theorem instantiateDeeds_stable (hs : w.engine.semantics = some s)
    (hfind : w.engine.variants.find? entity (c.project (s.sensitivity entity)) = none)
    (hstable : w.engine.isStable = true) : w.instantiateDeeds run deeds entity c = [] := by
  simp only [instantiateDeeds, hs, hfind, hstable, if_true]

theorem instantiateDeeds_new (hs : w.engine.semantics = some s)
    (hfind : w.engine.variants.find? entity (c.project (s.sensitivity entity)) = none)
    (hstable : w.engine.isStable = false) {created : VariantId × World ε τ σ}
    (hcreate : w.create entity (c.project (s.sensitivity entity)) (s.shape entity) = created) :
    w.instantiateDeeds run deeds entity c =
      ⟨.discover created.1 entity (c.project (s.sensitivity entity)), w⟩ ::
        (deeds (s.discover created.1) created.2 ++
          discoveredDeeds entity c created.1 (deeds (s.discover created.1) created.2)
            (run (s.discover created.1) created.2)) := by
  simp only [instantiateDeeds, hs, hfind, hstable, hcreate, Bool.false_eq_true, if_false]

end Instantiating

section Executing

omit [DecidableEq ε]

variable (run : Runner ε τ σ) (deeds : Chronicler ε τ σ) {n : NodeId} {l : ListenerId} {id : TaskId}
  {tokens : TokenSet τ} {task : Routine ε τ σ} {react : NodeId → TokenSet τ → Routine ε τ σ}

theorem collect_of_none {item : WorkItem} (h : w.flow.agenda.delta? item = none) :
    w.collect item = (none, w) := by
  have hflow : w.setFlow { w.flow with agenda := (w.flow.agenda.collect item).2 } = w := by
    rw [Agenda.collect_of_delta? h]
    rfl
  exact Prod.ext h hflow

theorem collect_of_some {item : WorkItem} {tokens : TokenSet τ}
    (h : w.flow.agenda.delta? item = some tokens) : w.collect item =
      (some tokens, w.setFlow { w.flow with agenda := (w.flow.agenda.collect item).2 }) :=
  Prod.ext h rfl

/-- What an item comes to when its listener is done. -/
def heard (item : WorkItem) (tokens : TokenSet τ) :
    Outcome ε τ σ Unit → Outcome ε τ σ Bool
  | (.ok _, w) => (.ok true, w)
  | (.error e, w) => (.error e, w.givenBack item tokens)

theorem execute_done {item : WorkItem} (h : w.Done item) :
    execute run item w = some (.ok false, w) := by
  cases item with
  | task id =>
    have hnone : w.engine.tasks.get? id = none := h
    simp only [execute, hnone]
  | send | notify => simp only [execute, collect_of_none h]

/-- Sending is collecting and delivering. -/
theorem execute_send (hd : w.flow.agenda.delta? (.send n) = some tokens)
    {w₁ : World ε τ σ} (hw₁ : w.collected (.send n) = w₁) :
    execute run (.send n) w =
      some (.ok true, w₁.setFlow (w₁.flow.deliver w₁.sieve n tokens).2) := by
  subst hw₁
  simp only [execute, collected, collect_of_some hd]

theorem execute_send_flow (hd : w.flow.agenda.delta? (.send n) = some tokens) :
    (w.collected (.send n)).setFlow ((w.collected (.send n)).flow.deliver
      (w.collected (.send n)).sieve n tokens).2 =
        w.setFlow (w.flow.execute w.sieve (.send n)).2 := by
  unfold Flow.execute Agenda.collect
  rw [hd]
  rfl

theorem execute_lost (hd : w.flow.agenda.delta? (.notify n l) = some tokens)
    (hl : w.engine.listeners[l.index]? = none) :
    execute run (.notify n l) w =
      some (.error (.usage (.unknownListener l)), w.collected (.notify n l)) := by
  have hl' : (w.collect (.notify n l)).2.engine.listeners[l.index]? = none := hl
  simp only [execute, collected, collect_of_some hd] at hl' ⊢
  simp only [hl']

/-- **A listener is called with the tokens that wait for it.** -/
theorem execute_heard (hd : w.flow.agenda.delta? (.notify n l) = some tokens)
    (hl : w.engine.listeners[l.index]? = some react) :
    execute run (.notify n l) w =
      (run (react n tokens) (w.collected (.notify n l))).map (heard (.notify n l) tokens) := by
  have hl' : (w.collect (.notify n l)).2.engine.listeners[l.index]? = some react := hl
  simp only [execute, collected, collect_of_some hd] at hl' ⊢
  simp only [hl']
  rcases run (react n tokens) _ with _ | ⟨_ | _, _⟩ <;> rfl

theorem execute_task (ht : w.engine.tasks.get? id = some task) :
    execute run (.task id) w =
      (run task (w.withoutTask id)).map fun (outcome, w) => (outcome.map fun _ => true, w) := by
  simp only [execute, ht]
  unfold withoutTask
  rcases run task _ with _ | ⟨_ | _, _⟩ <;> rfl

theorem executeDeeds_done {item : WorkItem} (h : w.Done item) :
    w.executeDeeds run deeds item = [⟨.execute item, w⟩] := by
  cases item with
  | send => rfl
  | notify => simp only [executeDeeds, collect_of_none h]
  | task id =>
    have hnone : w.engine.tasks.get? id = none := h
    simp only [executeDeeds, hnone]

theorem executeDeeds_lost (hd : w.flow.agenda.delta? (.notify n l) = some tokens)
    (hl : w.engine.listeners[l.index]? = none) :
    w.executeDeeds run deeds (.notify n l) = [⟨.execute (.notify n l), w⟩] := by
  have hl' : (w.collect (.notify n l)).2.engine.listeners[l.index]? = none := hl
  simp only [executeDeeds, collect_of_some hd] at hl' ⊢
  simp only [hl']

theorem executeDeeds_heard (hd : w.flow.agenda.delta? (.notify n l) = some tokens)
    (hl : w.engine.listeners[l.index]? = some react) :
    w.executeDeeds run deeds (.notify n l) =
      ⟨.execute (.notify n l), w⟩ :: (deeds (react n tokens) (w.collected (.notify n l)) ++
        heardDeeds n l (run (react n tokens) (w.collected (.notify n l)))) := by
  have hl' : (w.collect (.notify n l)).2.engine.listeners[l.index]? = some react := hl
  simp only [executeDeeds, collected, collect_of_some hd] at hl' ⊢
  simp only [hl']

theorem executeDeeds_task (ht : w.engine.tasks.get? id = some task) :
    w.executeDeeds run deeds (.task id) =
      ⟨.execute (.task id), w⟩ :: deeds task (w.withoutTask id) := by
  simp only [executeDeeds, ht]

theorem round_idle (hstart : w.flow.agenda.startRound = none) :
    round run w = some (.ok none, w) := by
  simp only [round, hstart]

theorem round_busy {bag : Bag WorkItem} {agenda : Agenda τ}
    (hstart : w.flow.agenda.startRound = some (bag, agenda)) :
    round run w = (executeBag run bag.size bag 0 (w.begun agenda)).map
      fun (p, w) => finishRound p w := by
  simp only [round, hstart, begun]

theorem roundLog_idle (hstart : w.flow.agenda.startRound = none) : w.roundLog run deeds = [] := by
  simp only [roundLog, hstart]

theorem roundLog_busy {bag : Bag WorkItem} {agenda : Agenda τ}
    (hstart : w.flow.agenda.startRound = some (bag, agenda)) :
    w.roundLog run deeds =
      ⟨.beginRound, w⟩ :: ((w.begun agenda).executeBagDeeds run deeds bag.size bag ++
        endDeeds (executeBag run bag.size bag 0 (w.begun agenda))) := by
  simp only [roundLog, roundDeeds, hstart]

end Executing

end World

/-! ## 3. The log of a run is a course -/

variable {allowed : Request ε τ σ → Prop}

/-- **A course on which only what is allowed is asked for**, and collaborators go on like that. -/
structure Follows (allowed : Request ε τ σ → Prop) (m : Moment ε τ σ) (log : List (Entry ε τ σ))
    (m' : Moment ε τ σ) : Prop where
  course : Course m log m'
  asked : ∀ x ∈ log, x.deed.Only allowed
  only : m'.world.staff.Only allowed

namespace Follows

variable {m m₁ m' : Moment ε τ σ} {d : Deed ε τ σ} {log log' : List (Entry ε τ σ)}

theorem nil (h : m.world.staff.Only allowed) : Follows allowed m [] m :=
  ⟨.nil, List.forall_mem_nil _, h⟩

theorem cons (hstep : Step m d m₁) (hd : d.Only allowed) (h : Follows allowed m₁ log m') :
    Follows allowed m (⟨d, m.world⟩ :: log) m' :=
  ⟨.cons hstep h.course, List.forall_mem_cons.mpr ⟨hd, h.asked⟩, h.only⟩

theorem append (h : Follows allowed m log m₁) (h' : Follows allowed m₁ log' m') :
    Follows allowed m (log ++ log') m' :=
  ⟨h.course.append h'.course, List.forall_mem_append.mpr ⟨h.asked, h'.asked⟩, h'.only⟩

theorem isReset (h : Follows allowed m log m') (hreset : ¬ allowed .reset) :
    ∀ x ∈ log, x.isReset = false :=
  fun x hx => (h.asked x hx).isReset hreset

end Follows

section Logging

variable {α : Type} {m m₁ m' : Moment ε τ σ} {d : Deed ε τ σ} {log log' : List (Entry ε τ σ)}
  {bags bags' : List (Bag WorkItem)} {errands errands' : List (Errand τ)} {w : World ε τ σ}
  {done : Option (α × World ε τ σ)}

/-- **The log of something that is run**: such a course, and if the run comes to an end, so does the
course, with these bags and errands under way. -/
def Logged (allowed : Request ε τ σ → Prop) (m : Moment ε τ σ) (log : List (Entry ε τ σ))
    (bags : List (Bag WorkItem)) (errands : List (Errand τ)) (done : Option (α × World ε τ σ)) :
    Prop :=
  ∃ m', Follows allowed m log m' ∧ ∀ a w, done = some (a, w) → m' = ⟨w, bags, errands⟩

namespace Logged

theorem finished {a : α} (h : Follows allowed m log ⟨w, bags, errands⟩) :
    Logged allowed m log bags errands (some (a, w)) := by
  refine ⟨_, h, fun _ _ heq => ?_⟩
  cases heq
  rfl

theorem unfinished (h : Follows allowed m log m') :
    Logged (α := α) allowed m log bags errands none :=
  ⟨m', h, fun _ _ heq => (Option.some_ne_none _ heq.symm).elim⟩

theorem follows {a : α} (h : Logged allowed m log bags errands done) (hdone : done = some (a, w)) :
    Follows allowed m log ⟨w, bags, errands⟩ := by
  obtain ⟨m', hfollows, hend⟩ := h
  exact hend a w hdone ▸ hfollows

theorem nil {a : α} (h : w.staff.Only allowed) :
    Logged allowed ⟨w, bags, errands⟩ [] bags errands (some (a, w)) :=
  finished (.nil h)

theorem cons (hstep : Step m d m₁) (hd : d.Only allowed)
    (h : Logged allowed m₁ log bags errands done) :
    Logged allowed m (⟨d, m.world⟩ :: log) bags errands done := by
  obtain ⟨m', hfollows, hend⟩ := h
  exact ⟨m', hfollows.cons hstep hd, hend⟩

/-- What is run next is logged after what is done. -/
theorem append (h : Follows allowed m log m₁) (h' : Logged allowed m₁ log' bags errands done) :
    Logged allowed m (log ++ log') bags errands done := by
  obtain ⟨m', hfollows, hend⟩ := h'
  exact ⟨m', h.append hfollows, hend⟩

/-- Nothing is run any more. -/
theorem append_nil {β : Type} (h : Logged (α := α) allowed m log bags errands none) :
    Logged (α := β) allowed m (log ++ []) bags' errands' none := by
  obtain ⟨m', hfollows, -⟩ := h
  exact append hfollows (unfinished (.nil hfollows.only))

/-- What comes of a run may be told differently, if the world at its end is the same. -/
theorem map {β : Type} {done' : Option (β × World ε τ σ)}
    (h : Logged allowed m log bags errands done)
    (heq : done'.map Prod.snd = done.map Prod.snd) : Logged allowed m log bags errands done' := by
  obtain ⟨m', hfollows, hend⟩ := h
  refine ⟨m', hfollows, ?_⟩
  rintro b w rfl
  obtain ⟨⟨a, _⟩, hdone, rfl⟩ := Option.map_eq_some_iff.mp heq.symm
  exact hend a _ hdone

end Logged

end Logging

variable {run : Runner ε τ σ} {deeds : Chronicler ε τ σ} {bags : List (Bag WorkItem)}
  {errands : List (Errand τ)}

/-- Whatever the runner runs is logged, whatever rounds and errands are under way. -/
def Runner.Logs (allowed : Request ε τ σ → Prop) (run : Runner ε τ σ)
    (deeds : Chronicler ε τ σ) : Prop :=
  ∀ {r w} bags errands, r.Only allowed → w.staff.Only allowed →
    Logged allowed ⟨w, bags, errands⟩ (deeds r w) bags errands (run r w)

namespace World

variable {w : World ε τ σ}

/-! ### Variants -/

theorem staff_create {entity : ε} {c : Context ε} (shape : Shape)
    (hfind : w.engine.variants.find? entity c = none) :
    (w.create entity c shape).2.staff.Only allowed ↔ w.staff.Only allowed := by
  obtain ⟨_, _, hcreate⟩ := create_eq shape hfind
  rw [hcreate]
  exact ⟨fun h => ⟨h.listeners, h.tasks, h.semantics⟩,
    fun h => ⟨h.listeners, h.tasks, h.semantics⟩⟩

/-- A discovery comes to its end, and its variant is answered with if it is still there. -/
theorem discovered_logged {entity : ε} {c : Context ε} {id : VariantId}
    (hfound : w.engine.find? entity c = some id) {discovery : List (Entry ε τ σ)}
    {done : Option (Outcome ε τ σ Unit)}
    (h : Logged allowed ⟨w, bags, .discovery id :: errands⟩ discovery bags
      (.discovery id :: errands) done) :
    Logged allowed ⟨w, bags, .discovery id :: errands⟩
      (discovery ++ discoveredDeeds entity c id discovery done) bags errands
      (done.map fun (outcome, w) => (outcome.map fun _ => some id, w)) := by
  rcases done with _ | ⟨outcome, w₁⟩
  · exact h.append_nil
  · have hdone := h.follows rfl
    cases outcome with
    | error e => exact .append hdone (.cons (.discovered (.error e)) trivial (.nil hdone.only))
    | ok =>
      refine .append hdone (.cons (.discovered (.ok ())) trivial ?_)
      split
      · exact .nil hdone.only
      · rename_i hfree
        have hkeeps : w.Keeps w₁ := hdone.course.keeps fun x hx =>
          eq_false_of_ne_true fun hx' => hfree (List.any_eq_true.mpr ⟨x, hx, hx'⟩)
        exact .cons (.answer (hkeeps.find? hfound)) trivial (.nil hdone.only)

theorem instantiate_logged (hrun : Runner.Logs allowed run deeds) (hw : w.staff.Only allowed)
    (bags : List (Bag WorkItem)) (errands : List (Errand τ)) (entity : ε) (c : Context ε) :
    Logged allowed ⟨w, bags, errands⟩ (w.instantiateDeeds run deeds entity c) bags errands
      (w.instantiate run entity c) := by
  cases hs : w.engine.semantics with
  | none =>
    rw [instantiate_unconfigured run hs, instantiateDeeds_unconfigured run deeds hs]
    exact .nil hw
  | some s =>
    cases hfind : w.engine.variants.find? entity (c.project (s.sensitivity entity)) with
    | some id =>
      rw [instantiate_known run hs hfind, instantiateDeeds_known run deeds hs hfind]
      have hfound : w.engine.find? entity c = some id := Option.bind_eq_some_iff.mpr ⟨s, hs, hfind⟩
      exact .cons (.answer hfound) trivial (.nil hw)
    | none =>
      cases hstable : w.engine.isStable with
      | true =>
        rw [instantiate_stable run hs hfind hstable,
          instantiateDeeds_stable run deeds hs hfind hstable]
        exact .nil hw
      | false =>
        have hfound := find?_create (s.shape entity) hfind
        have honly := (staff_create (s.shape entity) hfind).mpr hw
        have hsemantics := (keeps_create (s.shape entity) hfind).semantics.trans hs
        cases hcreate : w.create entity (c.project (s.sensitivity entity)) (s.shape entity) with
        | mk id w' =>
          rw [hcreate] at hfound honly hsemantics
          rw [instantiateDeeds_new run deeds hs hfind hstable hcreate,
            instantiate_new run hs hfind hstable hcreate]
          refine .cons (.discover hs hfind hstable hcreate) trivial (discovered_logged ?_ ?_)
          · exact Option.bind_eq_some_iff.mpr ⟨s, hsemantics, hfound⟩
          · exact hrun bags (.discovery id :: errands) (hw.semantics hs id) honly

/-! ### Items -/

omit [DecidableEq ε] in
theorem only_withoutTask (hw : w.staff.Only allowed) (id : TaskId) :
    (w.withoutTask id).staff.Only allowed := by
  refine ⟨hw.listeners, fun {id' r} hr => ?_, hw.semantics⟩
  have hr' : (w.engine.tasks.erase id).get? id' = some r := hr
  rw [Table.get?_erase] at hr'
  split at hr'
  · cases hr'
  · exact hw.tasks hr'

/-- A listener comes to its end, or fails and gets its tokens again. -/
theorem heard_logged {bag : Bag WorkItem} {n : NodeId} {l : ListenerId} {tokens : TokenSet τ}
    {log : List (Entry ε τ σ)} {done : Option (Outcome ε τ σ Unit)}
    (h : Logged allowed ⟨w, bag :: bags, .hearing n l tokens :: errands⟩ log (bag :: bags)
      (.hearing n l tokens :: errands) done) :
    Logged allowed ⟨w, bag :: bags, .hearing n l tokens :: errands⟩ (log ++ heardDeeds n l done)
      (bag :: bags) errands (done.map (heard (.notify n l) tokens)) := by
  rcases done with _ | ⟨outcome, w₁⟩
  · exact h.append_nil
  · have hdone := h.follows rfl
    cases outcome with
    | error e => exact .append hdone (.cons (.giveBack e) trivial (.nil hdone.only))
    | ok => exact .append hdone (.cons .heard trivial (.nil hdone.only))

theorem execute_logged (hrun : Runner.Logs allowed run deeds) (hw : w.staff.Only allowed)
    {item : WorkItem} {bag rest : Bag WorkItem} (htake : bag.take = (some item, rest)) :
    Logged allowed ⟨w, bag :: bags, errands⟩ (w.executeDeeds run deeds item) (rest :: bags) errands
      (execute run item w) := by
  have idle : w.Done item → Logged allowed ⟨w, bag :: bags, errands⟩
      (w.executeDeeds run deeds item) (rest :: bags) errands (execute run item w) := by
    intro hdone
    rw [execute_done run hdone, executeDeeds_done run deeds hdone]
    exact .cons (.skip htake hdone) trivial (.nil hw)
  cases item with
  | send n =>
    cases hd : w.flow.agenda.delta? (.send n) with
    | none => exact idle hd
    | some tokens =>
      rw [execute_send run hd rfl, execute_send_flow hd]
      exact .cons (.send htake hd) trivial (.nil hw)
  | notify n l =>
    cases hd : w.flow.agenda.delta? (.notify n l) with
    | none => exact idle hd
    | some tokens =>
      cases hl : w.engine.listeners[l.index]? with
      | none =>
        rw [execute_lost run hd hl, executeDeeds_lost run deeds hd hl]
        exact .cons (.lose htake hd hl) trivial (.nil hw)
      | some react =>
        rw [execute_heard run hd hl, executeDeeds_heard run deeds hd hl]
        have hcall : Logged allowed
            ⟨w.collected (.notify n l), rest :: bags, .hearing n l tokens :: errands⟩
            (deeds (react n tokens) (w.collected (.notify n l))) (rest :: bags)
            (.hearing n l tokens :: errands)
            (run (react n tokens) (w.collected (.notify n l))) :=
          hrun _ _ (hw.listeners hl n tokens) hw
        exact .cons (.hear htake hd hl) trivial (heard_logged hcall)
  | task id =>
    cases ht : w.engine.tasks.get? id with
    | none => exact idle ht
    | some task =>
      rw [execute_task run ht, executeDeeds_task run deeds ht]
      refine .cons (.work htake ht) trivial
        ((hrun _ _ (hw.tasks ht) (only_withoutTask hw id)).map ?_)
      rw [Option.map_map]
      rfl

/-! ### Rounds -/

/-- A bag that is worked off comes to its end, or to the failure that stops it. -/
theorem executeBag_logged (hrun : Runner.Logs allowed run deeds) (hw : w.staff.Only allowed)
    (bags : List (Bag WorkItem)) (errands : List (Errand τ)) {count : Nat} (executed : Nat)
    {bag : Bag WorkItem} (hcount : bag.present.length ≤ count) :
    ∃ m', Follows allowed ⟨w, bag :: bags, errands⟩ (w.executeBagDeeds run deeds count bag) m' ∧
      ∀ p w', executeBag run count bag executed w = some (p, w') →
        ∃ left, m' = ⟨w', left :: bags, errands⟩ ∧
          match p.failure with
          | none => left.take.1 = none
          | some _ => left = p.bag := by
  induction count generalizing bag executed w with
  | zero =>
    refine ⟨_, .nil hw, fun p w' hdone => ?_⟩
    cases hdone
    have hnil : bag.present = [] := List.length_eq_zero_iff.mp (Nat.le_zero.mp hcount)
    exact ⟨bag, rfl, Bag.take_fst_of_nil hnil⟩
  | succ count ih =>
    unfold executeBag executeBagDeeds
    cases htake : bag.take with
    | mk item rest =>
      cases item with
      | none =>
        refine ⟨_, .nil hw, fun p w' hdone => ?_⟩
        cases hdone
        exact ⟨bag, rfl, congrArg Prod.fst htake⟩
      | some item =>
        dsimp only
        have hitem : Logged allowed ⟨w, bag :: bags, errands⟩ (w.executeDeeds run deeds item)
            (rest :: bags) errands (execute run item w) := execute_logged hrun hw htake
        cases hdone : execute run item w with
        | none =>
          rw [hdone] at hitem
          obtain ⟨m', hfollows, -⟩ := hitem
          refine ⟨m', by rwa [List.append_nil], fun p w' heq => ?_⟩
          cases heq
        | some done =>
          obtain ⟨answer, w₁⟩ := done
          have hfirst := hitem.follows hdone
          cases answer with
          | error e =>
            refine ⟨⟨w₁, rest :: bags, errands⟩, by rwa [List.append_nil], fun p w' heq => ?_⟩
            cases heq
            exact ⟨rest, rfl, rfl⟩
          | ok did =>
            have hlength := Bag.length_take htake
            have hcount' : rest.present.length ≤ count := by omega
            obtain ⟨m', hrest, hend⟩ :=
              ih hfirst.only (if did then executed + 1 else executed) hcount'
            exact ⟨m', hfirst.append hrest, hend⟩

theorem round_logged (hrun : Runner.Logs allowed run deeds) (hw : w.staff.Only allowed)
    (bags : List (Bag WorkItem)) (errands : List (Errand τ)) :
    Logged allowed ⟨w, bags, errands⟩ (w.roundLog run deeds) bags errands (round run w) := by
  cases hstart : w.flow.agenda.startRound with
  | none =>
    rw [round_idle run hstart, roundLog_idle run deeds hstart]
    exact .nil hw
  | some start =>
    obtain ⟨bag, agenda⟩ := start
    rw [round_busy run hstart, roundLog_busy run deeds hstart]
    obtain ⟨m', hfollows, hend⟩ := executeBag_logged (w := w.begun agenda) hrun hw bags errands 0
      (Nat.le_refl bag.present.length)
    refine .cons (.beginRound hstart) trivial ?_
    cases hdone : executeBag run bag.size bag 0 (w.begun agenda) with
    | none => exact .append hfollows (.unfinished (.nil hfollows.only))
    | some done =>
      obtain ⟨⟨bag', executed, failure⟩, w₁⟩ := done
      obtain ⟨left, rfl, hleft⟩ := hend _ w₁ hdone
      refine .append hfollows ?_
      cases failure with
      | none => exact .cons (.finish executed hleft) trivial (.nil hfollows.only)
      | some failure =>
        subst hleft
        exact .cons (.breakOff executed failure) trivial (.nil hfollows.only)

end World

/-! ### Routines -/

/-- A request, and what follows on it. -/
theorem Logged.ask {α : Type} {w : World ε τ σ} {log : List (Entry ε τ σ)}
    {done : Option (α × World ε τ σ)} (q : Request ε τ σ) (hq : q.Only allowed)
    (hw : w.staff.Only allowed)
    (h : (q.perform w).staff.Only allowed →
      Logged allowed ⟨q.perform w, bags, errands⟩ log bags errands done) :
    Logged allowed ⟨w, bags, errands⟩ (⟨.ask q, w⟩ :: log) bags errands done :=
  .cons (.ask q) hq (h (hq.perform hw))

theorem Routine.runWith_logged (hrun : Runner.Logs allowed run deeds) (r : Routine ε τ σ) :
    ∀ {w}, r.Only allowed → w.staff.Only allowed →
      Logged allowed ⟨w, bags, errands⟩ (r.deedsWith run deeds w) bags errands
        (r.runWith run w) := by
  induction r with
  | done | fail => exact fun _ hw => .nil hw
  | instantiate entity c next ih =>
    intro w hr hw
    rw [runWith, deedsWith]
    have hfirst := World.instantiate_logged hrun hw bags errands entity c
    cases hdone : w.instantiate run entity c with
    | none =>
      rw [hdone] at hfirst
      exact hfirst.append_nil
    | some done =>
      have hfollows := hfirst.follows hdone
      exact .append hfollows (ih done.1 (hr done.1) hfollows.only)
  | round next ih =>
    intro w hr hw
    rw [runWith, deedsWith]
    have hfirst := World.round_logged hrun hw bags errands
    cases hdone : World.round run w with
    | none =>
      rw [hdone] at hfirst
      exact hfirst.append_nil
    | some done =>
      have hfollows := hfirst.follows hdone
      exact .append hfollows (ih done.1 (hr done.1) hfollows.only)
  | find entity c next ih => exact fun hr hw => .cons .look trivial (ih _ (hr _) hw)
  | observe next ih => exact fun hr hw => .cons .look trivial (ih _ (hr _) hw)
  | consult next ih => exact fun hr hw => .cons .look trivial (ih _ (hr _) hw)
  -- all others ask for one thing and go on
  | addNode next ih => exact fun hr hw => .ask .addNode hr.1 hw (ih _ (hr.2 _))
  | link source target next ih =>
    exact fun hr hw => .ask (.link source target) hr.1 hw (ih _ (hr.2 _))
  | deliver n tokens next ih => exact fun hr hw => .ask (.deliver n tokens) hr.1 hw (ih _ (hr.2 _))
  | offer n tokens next ih => exact fun hr hw => .ask (.offer n tokens) hr.1 hw (ih _ (hr.2 _))
  | setFilter n f next ih => exact fun hr hw => .ask (.setFilter n f) hr.1 hw (ih _ (hr.2 _))
  | filterByType n type next ih =>
    exact fun hr hw => .ask (.filterByType n type) hr.1 hw (ih _ (hr.2 _))
  | listen n react next _ ih =>
    exact fun hr hw => .ask (.listen n react) ⟨hr.1, hr.2.1⟩ hw (ih _ (hr.2.2 _))
  | postpone task next _ ih =>
    exact fun hr hw => .ask (.postpone task) ⟨hr.1, hr.2.1⟩ hw (ih _ (hr.2.2 _))
  | condense next ih => exact fun hr hw => .ask .condense hr.1 hw (ih _ (hr.2 _))
  | condenseIfDue next ih => exact fun hr hw => .ask .condenseIfDue hr.1 hw (ih _ (hr.2 _))
  | reset next ih => exact fun hr hw => .ask .reset hr.1 hw (ih hr.2)
  | replace shared next ih => exact fun hr hw => .ask (.replace shared) hr.1 hw (ih hr.2)
  | setActive active next ih => exact fun hr hw => .ask (.setActive active) hr.1 hw (ih hr.2)

/-- **The log of a run is a course of the engine**, to its end or as far as it gets, and only what
is allowed is asked for on it. -/
theorem World.run_logged (depth : Nat) :
    Runner.Logs allowed (World.run depth : Runner ε τ σ) (World.deeds depth) := by
  induction depth with
  | zero => exact fun _ _ _ hw => .unfinished (.nil hw)
  | succ depth ih => exact fun _ _ hr hw => Routine.runWith_logged ih _ hr hw

omit [DecidableEq ε] in
theorem Routine.only_of_forall (hall : ∀ q, allowed q) (r : Routine ε τ σ) : r.Only allowed := by
  induction r <;> simp_all [Routine.Only]

omit [DecidableEq ε] in
theorem Staff.only_of_forall (hall : ∀ q, allowed q) (s : Staff ε τ σ) : s.Only allowed :=
  ⟨fun _ _ _ => Routine.only_of_forall hall _, fun _ => Routine.only_of_forall hall _,
    fun _ _ => Routine.only_of_forall hall _⟩

/-- So it is whatever is asked for. -/
theorem World.run_course (depth : Nat) (r : Routine ε τ σ) (w : World ε τ σ)
    (bags : List (Bag WorkItem)) (errands : List (Errand τ)) :
    ∃ m', Course ⟨w, bags, errands⟩ (World.deeds depth r w) m' ∧
      ∀ answer w', World.run depth r w = some (answer, w') → m' = ⟨w', bags, errands⟩ := by
  have hall : ∀ q : Request ε τ σ, (fun _ => True : Request ε τ σ → Prop) q := fun _ => trivial
  obtain ⟨m', hfollows, hend⟩ := World.run_logged depth bags errands
    (Routine.only_of_forall hall r) (Staff.only_of_forall hall w.staff)
  exact ⟨m', hfollows.course, hend⟩

/-! ## 4. Stories -/

/-- **A property of the log so far and the moment after it that single steps uphold.** -/
def Upheld (P : List (Entry ε τ σ) → Moment ε τ σ → Prop) : Prop :=
  ∀ {l m d m'}, P l m → Step m d m' → P (l ++ [⟨d, m.world⟩]) m'

variable {P : List (Entry ε τ σ) → Moment ε τ σ → Prop}

/-- **What single steps uphold, courses uphold.** -/
theorem Course.upholds (hP : Upheld P) {m m' : Moment ε τ σ} {l log : List (Entry ε τ σ)}
    (h : Course m log m') (hm : P l m) : P (l ++ log) m' := by
  induction h generalizing l with
  | nil => rwa [List.append_nil]
  | cons hstep _ ih =>
    have hrest := ih (hP hm hstep)
    rwa [List.append_assoc] at hrest

/-- **What an engine goes through**: the worlds that it comes to, each with what was done since it
was new or was last reset from outside. Between calls anything may be set from outside, as long as
the language fits. A world is also taken in the middle of a call, whenever something is done
there. -/
inductive Story (fits : Semantics ε τ σ → Prop) (allowed : Deed ε τ σ → Prop) :
    List (Entry ε τ σ) → World ε τ σ → Prop where
  | new (settings : Settings) (shared : σ) (active : Bool) :
      Story fits allowed [] ⟨.new settings, shared, active⟩
  | install {log w} (s : Semantics ε τ σ) : Story fits allowed log w → fits s →
      Story fits allowed log { w with engine := { w.engine with semantics := some s } }
  | equip {log w} (tokenManager : Option (TokenManager σ τ)) (environment : Option Environment)
      (phase : Phase) (shared : σ) (active : Bool) : Story fits allowed log w →
      Story fits allowed log
        { engine := { w.engine with tokenManager, environment, phase }, shared, active }
  | reset {log w} : Story fits allowed log w →
      Story fits allowed [] { w with engine := w.engine.reset }
  | call {log w depth r answer w'} : Story fits allowed log w →
      (∀ x ∈ World.deeds depth r w, allowed x.deed) → World.run depth r w = some (answer, w') →
      Story fits allowed (log ++ World.deeds depth r w) w'
  | amid {log w depth r before x after} : Story fits allowed log w →
      World.deeds depth r w = before ++ x :: after → (∀ y ∈ before, allowed y.deed) →
      Story fits allowed (log ++ before) x.world

/-- **A property that lasts** whatever an engine goes through. -/
structure Lasting (fits : Semantics ε τ σ → Prop)
    (P : List (Entry ε τ σ) → Moment ε τ σ → Prop) : Prop where
  step : Upheld P
  new : ∀ settings shared active, P [] ⟨⟨.new settings, shared, active⟩, [], []⟩
  install : ∀ {l w s}, P l ⟨w, [], []⟩ → fits s →
    P l ⟨{ w with engine := { w.engine with semantics := some s } }, [], []⟩
  equip : ∀ {l w} tokenManager environment phase shared active, P l ⟨w, [], []⟩ →
    P l ⟨{ engine := { w.engine with tokenManager, environment, phase }, shared, active }, [], []⟩
  restart : ∀ {l w}, P l ⟨w, [], []⟩ → P [] ⟨{ w with engine := w.engine.reset }, [], []⟩
  /-- what is under way may be forgotten -/
  outside : ∀ {l w bags errands}, P l ⟨w, bags, errands⟩ → P l ⟨w, [], []⟩

namespace Story

variable {fits : Semantics ε τ σ → Prop} {allowed : Deed ε τ σ → Prop}
  {log : List (Entry ε τ σ)} {w : World ε τ σ}

/-- **What lasts holds in every story.** -/
theorem holds (hP : Lasting fits P) (h : Story fits allowed log w) : P log ⟨w, [], []⟩ := by
  induction h with
  | new settings shared active => exact hP.new settings shared active
  | install s _ hs ih => exact hP.install ih hs
  | equip tokenManager environment phase shared active _ ih => exact hP.equip _ _ _ _ _ ih
  | reset _ ih => exact hP.restart ih
  | @call _ w depth r _ _ _ _ hrun ih =>
    obtain ⟨m', hcourse, hend⟩ := World.run_course depth r w [] []
    obtain rfl := hend _ _ hrun
    exact hcourse.upholds hP.step ih
  | @amid _ w depth r _ _ _ _ hdeeds _ ih =>
    obtain ⟨m', hcourse, -⟩ := World.run_course depth r w [] []
    rw [hdeeds] at hcourse
    obtain ⟨⟨_, _, _⟩, hbefore, rfl⟩ := hcourse.split_cons
    exact hP.outside (hbefore.upholds hP.step ih)

/-- Nothing but what is allowed was done. -/
theorem only (h : Story fits allowed log w) : ∀ x ∈ log, allowed x.deed := by
  induction h with
  | new | reset => simp
  | install _ _ _ ih | equip _ _ _ _ _ _ ih => exact ih
  | call _ hdeeds _ ih | amid _ _ hdeeds ih =>
    exact fun x hx => (List.mem_append.mp hx).elim (ih x) (hdeeds x)

/-- The log of a story goes on with what is done in a call, up to any point of it. -/
theorem before_of_call {l l' t u : List (Entry ε τ σ)} {x : Entry ε τ σ} {depth : Nat}
    {r : Routine ε τ σ} (h : Story fits allowed log w)
    (ih : ∀ {l'}, log = l ++ x :: l' → Story fits allowed l x.world)
    (hdeeds : World.deeds depth r w = t ++ u) (hallowed : ∀ y ∈ t, allowed y.deed)
    (hlog : log ++ t = l ++ x :: l') : Story fits allowed l x.world := by
  rcases List.append_eq_append_iff.mp hlog with ⟨t', rfl, rfl⟩ | ⟨t', rfl, ht'⟩
  · rw [List.append_assoc] at hdeeds
    exact .amid h hdeeds fun y hy => hallowed y (List.mem_append_left _ hy)
  · cases t' with
    | nil =>
      rw [List.nil_append] at ht'
      subst ht'
      have hamid : Story fits allowed (l ++ [] ++ []) x.world :=
        h.amid hdeeds (List.forall_mem_nil _)
      rwa [List.append_nil, List.append_nil] at hamid
    | cons y t' =>
      obtain ⟨rfl, -⟩ := List.cons.inj ht'
      exact ih rfl

/-- **At every deed there is a story of what was done before it.** -/
theorem before (h : Story fits allowed log w) {l l' : List (Entry ε τ σ)} {x : Entry ε τ σ}
    (hlog : log = l ++ x :: l') : Story fits allowed l x.world := by
  induction h generalizing l' with
  | new | reset => simp at hlog
  | install _ _ _ ih | equip _ _ _ _ _ _ ih => exact ih hlog
  | call hstory hallowed _ ih =>
    exact hstory.before_of_call ih (List.append_nil _).symm hallowed hlog
  | amid hstory hdeeds hallowed ih => exact hstory.before_of_call ih hdeeds hallowed hlog

end Story

/-! ## 5. The worlds that requests lead to -/

/-- **The worlds that requests lead to** while no round is under way: collaborators run one after
the other, and in between what is set from outside may change. -/
inductive World.Reachable (allowed : Request ε τ σ → Prop) : World ε τ σ → Prop where
  | new (settings : Settings) (shared : σ) (active : Bool) :
      Reachable allowed ⟨.new settings, shared, active⟩
  | install {w} (semantics : Option (Semantics ε τ σ)) (tokenManager : Option (TokenManager σ τ))
      (environment : Option Environment) (phase : Phase) : Reachable allowed w →
      (∀ language, semantics = some language → ∀ id, (language.discover id).Only allowed) →
      Reachable allowed
        { w with engine := { w.engine with semantics, tokenManager, environment, phase } }
  | run {w w' depth r answer} : Reachable allowed w → r.Only allowed →
      World.run depth r w = some (answer, w') → Reachable allowed w'

theorem World.Reachable.only {w : World ε τ σ} (h : w.Reachable allowed) :
    w.staff.Only allowed := by
  induction h with
  | new => exact ⟨nofun, nofun, nofun⟩
  | install semantics tokenManager environment phase _ hsemantics ih =>
    exact ⟨ih.listeners, ih.tasks, fun {language} => hsemantics language⟩
  | run _ hr hrun ih => exact ((run_logged _ [] [] hr ih).follows hrun).only

end ValueFlow
