import ValueFlow.Proofs.Engine.Setup

/-!
# The course of an engine

Requests, collaborators that are run, rounds inside of rounds: whatever an engine does is a sequence
of single steps. A step is named by what is done in it, its `Deed`, and a course writes down every
deed with the world in which it is done. This log is all that is ever told of a run; what else is to
be known of it is read off there.

Collaborators may ask for rounds and for variants themselves. So there is a stack of bags, of which
only the uppermost one is worked on, and a stack of errands, collaborators that were called and have
not come to their end. What collaborators ask for between the steps is left open.

* `Step`: what may come next, and `Course`: any number of steps with their log;
* `Course.split`: every point of a log is a moment of the course;
* `Course.relates`: what single steps relate, courses relate;
* `Course.keeps`, `Course.sameSetup`: without a reset all variants are found again, and nobody
  changes what is set up from outside.
-/

namespace ValueFlow

variable {ε τ σ : Type} [Ordered τ]

/-! ## 1. Deeds -/

/-- **Something that is done in a run.** -/
inductive Deed (ε τ σ : Type) [Ordered τ] where
  /-- a collaborator looks at the engine -/
  | look
  | ask (request : Request ε τ σ)
  /-- a variant is created, and its discovery begins -/
  | discover (variant : VariantId) (entity : ε) (context : Context ε)
  /-- the discovery of a variant is over -/
  | discovered (variant : VariantId) (outcome : Except Failure Unit)
  /-- a request for a variant is answered with one -/
  | answer (entity : ε) (context : Context ε) (variant : VariantId)
  | beginRound
  /-- an item of a round is taken up -/
  | execute (item : WorkItem)
  /-- a listener has come to its end -/
  | heard (node : NodeId) (listener : ListenerId) (outcome : Except Failure Unit)
  /-- a round has come to its end, or to the failure that stops it -/
  | endRound (executed : Nat) (failure : Option Failure)

def Deed.isReset : Deed ε τ σ → Bool
  | .ask .reset => true
  | _ => false

theorem Deed.ne_reset {q : Request ε τ σ} (h : (Deed.ask q).isReset = false) : q ≠ .reset := by
  rintro rfl
  cases h

/-- Requests are of the allowed kinds. -/
def Deed.Only (allowed : Request ε τ σ → Prop) : Deed ε τ σ → Prop
  | .ask q => q.Only allowed
  | _ => True

theorem Deed.Only.isReset {allowed : Request ε τ σ → Prop} {d : Deed ε τ σ} (h : d.Only allowed)
    (hreset : ¬ allowed .reset) : d.isReset = false := by
  cases d with
  | ask q =>
    cases q with
    | reset => exact absurd h hreset
    | _ => rfl
  | _ => rfl

/-- A deed, and the world in which it is done. -/
structure Entry (ε τ σ : Type) [Ordered τ] where
  deed : Deed ε τ σ
  world : World ε τ σ

def Entry.isReset (x : Entry ε τ σ) : Bool := x.deed.isReset

/-! ## 2. Steps -/

/-- **A collaborator that was called**, and after whose end there is something to do. -/
inductive Errand (τ : Type) [Ordered τ] where
  | discovery (variant : VariantId)
  /-- a listener, with the tokens that it was given -/
  | hearing (node : NodeId) (listener : ListenerId) (tokens : TokenSet τ)

/-- **The engine between two steps**, with the bags of the rounds and the errands that are under
way, the innermost first. -/
structure Moment (ε τ σ : Type) [Ordered τ] where
  world : World ε τ σ
  bags : List (Bag WorkItem)
  errands : List (Errand τ)

namespace World

/-- There is nothing to do for an item. -/
def Done (w : World ε τ σ) : WorkItem → Prop
  | .task id => w.engine.tasks.get? id = none
  | item => w.flow.agenda.delta? item = none

/-- The world without the tokens of an item. -/
def collected (w : World ε τ σ) (item : WorkItem) : World ε τ σ := (w.collect item).2

/-- The world with tokens that wait again for an item. -/
def givenBack (w : World ε τ σ) (item : WorkItem) (tokens : TokenSet τ) : World ε τ σ :=
  w.setFlow { w.flow with agenda := (w.flow.agenda.post item tokens).2 }

/-- The world without a task. -/
def withoutTask (w : World ε τ σ) (id : TaskId) : World ε τ σ :=
  { w with engine := { w.engine with tasks := w.engine.tasks.erase id } }

/-- The engine at the beginning of a round, with what is left on the agenda. -/
def begun (w : World ε τ σ) (agenda : Agenda τ) : World ε τ σ :=
  { w with engine :=
    { w.engine with
      flow := { w.engine.flow with agenda }
      stats := { w.engine.stats with rounds := w.engine.stats.rounds + 1 } } }

end World

/-- **One step of an engine.** Only the innermost round goes on, and only the innermost errand comes
to its end. -/
inductive Step [DecidableEq ε] : Moment ε τ σ → Deed ε τ σ → Moment ε τ σ → Prop where
  | look {m} : Step m .look m
  | ask {w bags errands} (q : Request ε τ σ) :
      Step ⟨w, bags, errands⟩ (.ask q) ⟨q.perform w, bags, errands⟩
  | discover {w bags errands entity s created} {c : Context ε} (hs : w.engine.semantics = some s)
      (hfind : w.engine.variants.find? entity (c.project (s.sensitivity entity)) = none)
      (hstable : w.engine.isStable = false)
      (hcreate : w.create entity (c.project (s.sensitivity entity)) (s.shape entity) = created) :
      Step ⟨w, bags, errands⟩ (.discover created.1 entity (c.project (s.sensitivity entity)))
        ⟨created.2, bags, .discovery created.1 :: errands⟩
  | discovered {w bags errands id} (outcome : Except Failure Unit) :
      Step ⟨w, bags, .discovery id :: errands⟩ (.discovered id outcome) ⟨w, bags, errands⟩
  | answer {w bags errands entity c id} (hfind : w.engine.find? entity c = some id) :
      Step ⟨w, bags, errands⟩ (.answer entity c id) ⟨w, bags, errands⟩
  | beginRound {w bags errands bag agenda} (hbag : w.flow.agenda.startRound = some (bag, agenda)) :
      Step ⟨w, bags, errands⟩ .beginRound ⟨w.begun agenda, bag :: bags, errands⟩
  /-- there is nothing to do for an item -/
  | skip {w bag rest bags errands item} (htake : bag.take = (some item, rest))
      (hdone : w.Done item) :
      Step ⟨w, bag :: bags, errands⟩ (.execute item) ⟨w, rest :: bags, errands⟩
  | send {w bag rest bags errands n tokens} (htake : bag.take = (some (.send n), rest))
      (hd : w.flow.agenda.delta? (.send n) = some tokens) :
      Step ⟨w, bag :: bags, errands⟩ (.execute (.send n))
        ⟨w.setFlow (w.flow.execute w.sieve (.send n)).2, rest :: bags, errands⟩
  /-- a listener is called with the tokens that wait for it -/
  | hear {w bag rest bags errands n l tokens react}
      (htake : bag.take = (some (.notify n l), rest))
      (hd : w.flow.agenda.delta? (.notify n l) = some tokens)
      (hl : w.engine.listeners[l.index]? = some react) :
      Step ⟨w, bag :: bags, errands⟩ (.execute (.notify n l))
        ⟨w.setFlow (w.flow.execute w.sieve (.notify n l)).2, rest :: bags,
          .hearing n l tokens :: errands⟩
  /-- there is no such listener -/
  | lose {w bag rest bags errands n l tokens} (htake : bag.take = (some (.notify n l), rest))
      (hd : w.flow.agenda.delta? (.notify n l) = some tokens)
      (hl : w.engine.listeners[l.index]? = none) :
      Step ⟨w, bag :: bags, errands⟩ (.execute (.notify n l))
        ⟨w.setFlow (w.flow.execute w.sieve (.notify n l)).2, rest :: bags, errands⟩
  | work {w bag rest bags errands id task} (htake : bag.take = (some (.task id), rest))
      (htask : w.engine.tasks.get? id = some task) :
      Step ⟨w, bag :: bags, errands⟩ (.execute (.task id))
        ⟨w.withoutTask id, rest :: bags, errands⟩
  | heard {w bag bags errands n l tokens} :
      Step ⟨w, bag :: bags, .hearing n l tokens :: errands⟩ (.heard n l (.ok ()))
        ⟨w, bag :: bags, errands⟩
  /-- a listener failed, and its tokens wait again -/
  | giveBack {w bag bags errands n l tokens} (e : Failure) :
      Step ⟨w, bag :: bags, .hearing n l tokens :: errands⟩ (.heard n l (.error e))
        ⟨w.givenBack (.notify n l) tokens, bag :: bags, errands⟩
  | finish {w bag bags errands} (executed : Nat) (hend : bag.take.1 = none) :
      Step ⟨w, bag :: bags, errands⟩ (.endRound executed none)
        ⟨(World.finishRound ⟨bag, executed, none⟩ w).2, bags, errands⟩
  | breakOff {w bag bags errands} (executed : Nat) (failure : Failure) :
      Step ⟨w, bag :: bags, errands⟩ (.endRound executed (some failure))
        ⟨(World.finishRound ⟨bag, executed, some failure⟩ w).2, bags, errands⟩

/-! ## 3. Courses -/

variable [DecidableEq ε]

/-- **The course of an engine** from one moment to another, with its log. -/
inductive Course : Moment ε τ σ → List (Entry ε τ σ) → Moment ε τ σ → Prop where
  | nil {m} : Course m [] m
  | cons {m d m₁ log m'} : Step m d m₁ → Course m₁ log m' → Course m (⟨d, m.world⟩ :: log) m'

namespace Course

variable {m m₁ m' : Moment ε τ σ} {log log' : List (Entry ε τ σ)}

theorem append (h : Course m log m₁) (h' : Course m₁ log' m') : Course m (log ++ log') m' := by
  induction h with
  | nil => exact h'
  | cons hstep _ ih => exact .cons hstep (ih h')

theorem split (h : Course m (log ++ log') m') : ∃ m₁, Course m log m₁ ∧ Course m₁ log' m' := by
  induction log generalizing m with
  | nil => exact ⟨m, .nil, h⟩
  | cons x log ih =>
    cases h with
    | cons hstep hrest =>
      obtain ⟨m₁, hlog, hlog'⟩ := ih hrest
      exact ⟨m₁, .cons hstep hlog, hlog'⟩

/-- A deed is done in the world in which it is written down. -/
theorem split_cons {x : Entry ε τ σ} (h : Course m (log ++ x :: log') m') :
    ∃ m₁, Course m log m₁ ∧ m₁.world = x.world := by
  obtain ⟨m₁, hlog, hrest⟩ := h.split
  cases hrest with
  | cons => exact ⟨m₁, hlog, rfl⟩

/-- **What single steps relate, courses relate**, as far as only such deeds are done. -/
theorem relates {R : World ε τ σ → World ε τ σ → Prop} {P : Deed ε τ σ → Prop}
    (hrefl : ∀ w, R w w) (htrans : ∀ {w w₁ w'}, R w w₁ → R w₁ w' → R w w')
    (hstep : ∀ {m d m'}, Step m d m' → P d → R m.world m'.world) (h : Course m log m')
    (hlog : ∀ x ∈ log, P x.deed) : R m.world m'.world := by
  induction h with
  | nil => exact hrefl _
  | cons hfirst _ ih =>
    obtain ⟨hd, hrest⟩ := List.forall_mem_cons.mp hlog
    exact htrans (hstep hfirst hd) (ih hrest)

end Course

/-! ## 4. What courses leave alone -/

/-- The language is the same, and all variants are found again. -/
structure World.Keeps (w w' : World ε τ σ) : Prop where
  semantics : w'.engine.semantics = w.engine.semantics
  found : ∀ {entity c id}, w.engine.variants.find? entity c = some id →
    w'.engine.variants.find? entity c = some id

theorem World.Keeps.find? {w w' : World ε τ σ} (h : w.Keeps w') {entity : ε} {c : Context ε}
    {id : VariantId} (hfind : w.engine.find? entity c = some id) :
    w'.engine.find? entity c = some id := by
  obtain ⟨s, hs, hfound⟩ := Option.bind_eq_some_iff.mp hfind
  exact Option.bind_eq_some_iff.mpr ⟨s, h.semantics.trans hs, h.found hfound⟩

theorem World.Keeps.trans {w w₁ w' : World ε τ σ} (h : w.Keeps w₁) (h' : w₁.Keeps w') :
    w.Keeps w' :=
  ⟨h'.semantics.trans h.semantics, fun hfound => h'.found (h.found hfound)⟩

theorem World.keeps_create {w : World ε τ σ} {entity : ε} {c : Context ε} (shape : Shape)
    (hfind : w.engine.variants.find? entity c = none) : w.Keeps (w.create entity c shape).2 := by
  obtain ⟨_, _, hcreate⟩ := create_eq shape hfind
  rw [hcreate]
  refine ⟨rfl, fun hfound => ?_⟩
  dsimp only
  rw [VariantTable.find?_push, hfound]
  rfl

variable {m m' : Moment ε τ σ} {d : Deed ε τ σ} {log : List (Entry ε τ σ)}

theorem Step.keeps (h : Step m d m') (hd : d.isReset = false) : m.world.Keeps m'.world := by
  cases h with
  | @ask w _ _ q =>
    have hframe := Request.frame (Deed.ne_reset hd) w
    exact ⟨congrArg Setup.semantics hframe.setup, fun hfound => hframe.variants.symm ▸ hfound⟩
  | discover _ hfind _ hcreate => exact hcreate ▸ World.keeps_create _ hfind
  | _ => exact ⟨rfl, id⟩

/-- **Without a reset all variants are found again.** -/
theorem Course.keeps (h : Course m log m') (hlog : ∀ x ∈ log, x.isReset = false) :
    m.world.Keeps m'.world :=
  h.relates (P := fun d => d.isReset = false) (fun _ => ⟨rfl, id⟩)
    World.Keeps.trans Step.keeps hlog

/-- Both worlds are set up alike, if the phase of creation is on. -/
structure World.SameSetup (w w' : World ε τ σ) : Prop where
  order : w'.order = w.order
  setup : w.setup.phase = .unstable → w'.setup = w.setup

theorem Step.sameSetup (h : Step m d m') : m.world.SameSetup m'.world := by
  cases h with
  | @ask w _ _ q =>
    refine ⟨q.order_perform w, fun hphase => ?_⟩
    by_cases hq : q = .reset
    · subst hq
      show { w.setup with phase := .unstable } = w.setup
      rw [← hphase]
    · exact (Request.frame hq w).setup
  | discover _ hfind _ hcreate =>
    subst hcreate
    obtain ⟨_, _, hcreate⟩ := World.create_eq _ hfind
    rw [hcreate]
    exact ⟨rfl, fun _ => rfl⟩
  | beginRound hbag =>
    obtain ⟨-, rfl⟩ := Agenda.startRound_eq_some hbag
    exact ⟨rfl, fun _ => rfl⟩
  | send => exact ⟨(Flow.Does.execute _).order, fun _ => rfl⟩
  | giveBack => exact ⟨Agenda.order_post _ _ _, fun _ => rfl⟩
  | breakOff => exact ⟨Bag.order_foldl_add _ _, fun _ => rfl⟩
  | _ => exact ⟨rfl, fun _ => rfl⟩

/-- **Nobody changes what is set up from outside.** -/
theorem Course.sameSetup (h : Course m log m') : m.world.SameSetup m'.world := by
  refine h.relates (P := fun _ => True) (fun _ => ⟨rfl, fun _ => rfl⟩)
    (fun hfirst hrest => ⟨hrest.order.trans hfirst.order, fun hphase => ?_⟩)
    (fun hstep _ => hstep.sameSetup) fun _ _ => trivial
  have hsame := hfirst.setup hphase
  exact (hrest.setup (hsame ▸ hphase)).trans hsame

end ValueFlow
