import ValueFlow.Proofs.Engine.Filtering
import ValueFlow.Proofs.Engine.Recasting

/-!
# Listeners hear every token exactly once

When an item of a round is executed that notifies a listener, the listener is called with the tokens
that wait for it. What it is given in a run can so be read off the log of the run (`heardBy`). These
sets have nothing in common with each other or with what waits for the listener, and all together
they are the tokens of its node, at every moment of a run and not only between rounds
(`Story.heard_once`).

This needs a run that is `Smooth`: filters are put up while their node is still empty, no listener
fails, since its tokens would come again, and nothing is reset. And it needs filters that let pass
what they let pass before (`Reliable`). Everything else may happen: collaborators link, deliver,
attach listeners, teach the registry and condense cycles whenever they are called, and tasks may
fail.

* `Step.listening`, `lasting_informed`: what a smooth step keeps, and what holds in every smooth
  story;
* `Story.heard_once`: what a listener is given since it was attached.
-/

namespace ValueFlow

open ValueFlow.Flow

variable {ε τ σ : Type} [Ordered τ]

/-! ## 1. Smooth runs -/

/-- The request does not reset the engine, and a filter that it puts up finds no tokens. -/
def Request.Smooth (w : World ε τ σ) : Request ε τ σ → Prop
  | .setFilter n f => (w.setFilter n f).1 = .ok () → w.flow.graph.tokens n = ∅
  | .filterByType n type => (w.filterByType n type).1 = .ok true → w.flow.graph.tokens n = ∅
  | .reset => False
  | _ => True

/-- **Nothing happens that listeners would not be told of.** -/
def Entry.Smooth (x : Entry ε τ σ) : Prop :=
  match x.deed with
  | .ask q => q.Smooth x.world
  | .heard _ _ (.error _) => False
  | _ => True

instance [DecidableEq τ] (w : World ε τ σ) (q : Request ε τ σ) : Decidable (q.Smooth w) :=
  match q with
  | .setFilter n f =>
    inferInstanceAs (Decidable ((w.setFilter n f).1 = .ok () → w.flow.graph.tokens n = ∅))
  | .filterByType n type =>
    inferInstanceAs (Decidable ((w.filterByType n type).1 = .ok true → w.flow.graph.tokens n = ∅))
  | .reset => isFalse id
  | .addNode | .link _ _ | .deliver _ _ | .offer _ _ | .listen _ _ | .postpone _ | .condense
  | .condenseIfDue | .replace _ | .setActive _ => isTrue trivial

instance [DecidableEq τ] (x : Entry ε τ σ) : Decidable x.Smooth :=
  match x with
  | ⟨.ask q, w⟩ => inferInstanceAs (Decidable (q.Smooth w))
  | ⟨.heard _ _ (.error _), _⟩ => isFalse id
  | ⟨.heard _ _ (.ok _), _⟩ | ⟨.look, _⟩ | ⟨.discover _ _ _, _⟩ | ⟨.discovered _ _, _⟩
  | ⟨.answer _ _ _, _⟩ | ⟨.beginRound, _⟩ | ⟨.execute _, _⟩ | ⟨.endRound _ _, _⟩ => isTrue trivial

theorem Entry.Smooth.isReset {x : Entry ε τ σ} (h : x.Smooth) : x.isReset = false := by
  obtain ⟨d, w⟩ := x
  cases d with
  | ask q =>
    cases q with
    | reset => exact h.elim
    | _ => rfl
  | _ => rfl

/-- What a listener at a node is given when an item is executed: what waits for it. -/
def Entry.given (n : NodeId) (l : ListenerId) (x : Entry ε τ σ) : Option (TokenSet τ) :=
  match x.deed with
  | .execute item => if item = .notify n l then x.world.flow.agenda.delta? item else none
  | _ => none

/-- **What a listener at a node is given**, one set of tokens after the other. -/
def heardBy (n : NodeId) (l : ListenerId) (log : List (Entry ε τ σ)) : List (TokenSet τ) :=
  log.filterMap (Entry.given n l)

/-- The listener has been given the token. -/
def Heard (log : List (Entry ε τ σ)) (n : NodeId) (l : ListenerId) (t : τ) : Prop :=
  ∃ tokens ∈ heardBy n l log, t ∈ tokens

section Log

variable {log log' : List (Entry ε τ σ)} {x : Entry ε τ σ} {n : NodeId} {l : ListenerId} {t : τ}

theorem heardBy_append : heardBy n l (log ++ log') = heardBy n l log ++ heardBy n l log' :=
  List.filterMap_append

theorem heard_append : Heard (log ++ log') n l t ↔ Heard log n l t ∨ Heard log' n l t := by
  simp [Heard, heardBy_append, or_and_right, exists_or]

theorem heard_singleton : Heard [x] n l t ↔ ∃ tokens, x.given n l = some tokens ∧ t ∈ tokens := by
  simp [Heard, heardBy]

theorem Entry.given_of_ne {item : WorkItem} {w : World ε τ σ} (h : item ≠ .notify n l) :
    Entry.given n l ⟨.execute item, w⟩ = none :=
  if_neg h

theorem Entry.given_execute {item : WorkItem} {w : World ε τ σ} {tokens : TokenSet τ} :
    Entry.given n l ⟨.execute item, w⟩ = some tokens ↔
      item = .notify n l ∧ w.flow.agenda.delta? (.notify n l) = some tokens := by
  by_cases heq : item = .notify n l
  · subst heq
    unfold Entry.given
    simp
  · simp [given_of_ne heq, heq]

theorem Entry.deed_of_given {tokens : TokenSet τ} (h : x.given n l = some tokens) :
    x.deed = .execute (.notify n l) := by
  obtain ⟨d, w⟩ := x
  cases d with
  | execute item => exact congrArg Deed.execute (Entry.given_execute.mp h).1
  | _ => cases h

end Log

/-! ## 2. What a smooth step keeps -/

/-- **Listeners are told of everything**, and all of them are known to the engine. -/
structure World.Listening (sieve : Filter σ τ → TokenSet τ → TokenSet τ)
    (heard : NodeId → ListenerId → τ → Prop) (w : World ε τ σ) : Prop where
  hearing : Hearing sieve heard w.flow
  registered : ∀ {n l}, l ∈ w.flow.graph.listeners n → l.index < w.engine.listeners.size

namespace World.Listening

variable {heard heard' : NodeId → ListenerId → τ → Prop} {w w' : World ε τ σ} {q : Request ε τ σ}
  {sieve : Filter σ τ → TokenSet τ → TokenSet τ} {n : NodeId} {l : ListenerId}
  {tokens : TokenSet τ}

/-- A filter that is accepted decides token by token, and finds no tokens. -/
theorem attentive_setFilter {f : Filter σ τ} {flow : Flow (Filter σ τ) τ}
    (hdoes : Does sieve w.flow (.setFilter n f) flow)
    (hretaining : flow.graph.filter? n = some f → Retains sieve f)
    (hempty : w.flow.graph.contains n → (∃ flow', w.flow.setFilter n f = .ok flow') →
      w.flow.graph.tokens n = ∅) : Attentive sieve w.flow (.setFilter n f) := by
  rintro ⟨flow', hflow'⟩
  cases hdoes with
  | refuse herror =>
    rw [herror] at hflow'
    cases hflow'
  | setFilter hn hok =>
    refine ⟨hretaining ?_, fun t ht => ?_⟩
    · obtain ⟨-, rfl⟩ := setFilter_eq_ok hok
      exact (filter?_modify_filter hn).trans (if_pos rfl)
    · rw [hempty hn ⟨_, hok⟩] at ht
      exact absurd ht (SortedSet.not_mem_empty t)

theorem setFilter_fst {f : Filter σ τ} {flow : Flow (Filter σ τ) τ} (hn : w.flow.graph.contains n)
    (hok : w.flow.setFilter n f = .ok flow) : w.setFilter n f = (.ok (), w.setFlow flow) := by
  simp only [World.setFilter, World.checkNode_eq_ok hn, hok]

theorem attentive (h : w.Listening w.sieve heard) (hq : q.Smooth w)
    (hretaining : ∀ {n f}, (q.perform w).flow.graph.filter? n = some f → Filter.Retaining f)
    {op : Operation (Filter σ τ) τ} (hasks : q.Asks w op)
    (hdoes : Does w.sieve w.flow op (q.perform w).flow) : Attentive w.sieve w.flow op := by
  cases hasks with
  | setFilter n f =>
    refine attentive_setFilter hdoes (fun hf => hretaining hf w.shared) fun hn ⟨flow', hok⟩ => hq ?_
    rw [setFilter_fst hn hok]
  | @filterByType n type m f s hm hf =>
    refine attentive_setFilter hdoes (fun hf => hretaining hf w.shared) fun hn ⟨flow', hok⟩ => hq ?_
    have hput : World.setFilter { w with shared := s } n f = (.ok (), _) :=
      setFilter_fst (w := { w with shared := s }) hn hok
    simp only [World.filterByType, hm, hf, hput]
  | link source htarget => exact htarget
  | listen n react => exact fun m hl => Nat.lt_irrefl _ (h.registered hl)
  | reset => exact hq.elim
  | addNode | deliver | offer | postpone | condense | condenseIfDue => exact trivial

end World.Listening

namespace World

variable {w : World ε τ σ} {n : NodeId} {l : ListenerId}
  {react : NodeId → TokenSet τ → Routine ε τ σ}

theorem listen_of_contains (hn : w.flow.graph.contains n) :
    (w.listen n react).1 = .ok ⟨w.engine.listeners.size⟩ := by
  simp only [listen, checkNode_eq_ok hn]

/-- What an accepted listener changes. -/
theorem listen_eq_ok (h : (w.listen n react).1 = .ok l) :
    w.flow.graph.contains n ∧ l = ⟨w.engine.listeners.size⟩ ∧
      (w.listen n react).2.engine.listeners = w.engine.listeners.push react ∧
        (w.listen n react).2.flow = w.flow.subscribe w.sieve n l := by
  by_cases hn : w.flow.graph.contains n
  · obtain rfl := Except.ok.inj ((listen_of_contains hn).symm.trans h)
    unfold listen
    rw [checkNode_eq_ok hn]
    exact ⟨hn, rfl, rfl, rfl⟩
  · simp only [listen, checkNode_eq_error w hn] at h
    cases h

end World

namespace Request

variable {w : World ε τ σ} {q : Request ε τ σ} {n : NodeId} {l : ListenerId}

/-- Callbacks stay where they are registered. -/
theorem getElem?_perform (hreset : q ≠ .reset) {i : Nat}
    {react : NodeId → TokenSet τ → Routine ε τ σ} (hi : w.engine.listeners[i]? = some react) :
    (q.perform w).engine.listeners[i]? = some react := by
  have hstaff : (q.perform w).engine.listeners = (q.perform w).staff.listeners := rfl
  rcases q.staff_perform w with e | ⟨_, react', -, e⟩ | ⟨_, -, e⟩ | ⟨-, e⟩ | ⟨e, -⟩
  · rw [hstaff, e]
    exact hi
  · rw [hstaff, e]
    have hlt := (Array.getElem?_eq_some_iff.mp hi).1
    exact (Array.getElem?_push_lt hlt).trans ((Array.getElem?_eq_getElem hlt).symm.trans hi)
  · rw [hstaff, e]
    exact hi
  · rw [hstaff, e]
    exact hi
  · exact absurd e hreset

/-- **Listeners stay at their nodes**, and come to them when they are accepted. -/
theorem mem_listeners_perform (hreset : q ≠ .reset) (hg : w.flow.graph.Grouped) :
    l ∈ (q.perform w).flow.graph.listeners n ↔ l ∈ w.flow.graph.listeners n ∨
      ∃ react, q = .listen n react ∧ (w.listen n react).1 = .ok l := by
  constructor
  · intro hl
    rcases q.flow_perform w with hflow | ⟨op, hasks, hdoes⟩
    · exact .inl (hflow ▸ hl)
    · rcases (hdoes.mem_listeners hg (hasks.ne_clear hreset)).mp hl with hl | rfl
      · exact .inl hl
      · cases hasks with
        | listen n react =>
          rcases w.listen_snd n react with hsame | ⟨hn, -⟩
          · have hflow : (Request.perform w (.listen n react)).flow = w.flow :=
              congrArg World.flow hsame
            exact .inl (hflow ▸ hl)
          · exact .inr ⟨react, rfl, World.listen_of_contains hn⟩
  · rintro (hl | ⟨react, rfl, hok⟩)
    · rcases q.flow_perform w with hflow | ⟨op, hasks, hdoes⟩
      · exact hflow ▸ hl
      · exact (hdoes.mem_listeners hg (hasks.ne_clear hreset)).mpr (.inl hl)
    · obtain ⟨hn, -, -, hflow⟩ := World.listen_eq_ok hok
      show l ∈ (w.listen n react).2.flow.graph.listeners n
      rw [hflow]
      exact (mem_listeners_subscribe hn).mpr (.inr ⟨rfl, rfl⟩)

end Request

theorem Graph.listeners_addNodes {φ : Type} {g : Graph φ τ} {n : NodeId}
    (labels : List (Option Label)) : (g.addNodes labels).listeners n = g.listeners n :=
  List.foldlRecOn (motive := fun g' : Graph φ τ => g'.listeners n = g.listeners n) labels _ rfl
    fun _ hg _ _ => Graph.listeners_addNode.trans hg

theorem Flow.Hearing.addNodes {φ : Type} {sieve : φ → TokenSet τ → TokenSet τ}
    {heard : NodeId → ListenerId → τ → Prop} {f : Flow φ τ} (h : Hearing sieve heard f)
    (labels : List (Option Label)) :
    Hearing sieve heard { f with graph := f.graph.addNodes labels } :=
  List.foldlRecOn (motive := fun g : Graph φ τ => Hearing sieve heard { f with graph := g }) labels
    _ h fun _ hg label _ => hg.addNode label

variable [DecidableEq ε] {m m' : Moment ε τ σ} {d : Deed ε τ σ} {log : List (Entry ε τ σ)}
  {n : NodeId} {l : ListenerId} {t : τ}

theorem Step.mem_listeners (h : Step m d m') (hd : d.isReset = false)
    (hg : m.world.flow.graph.Grouped) :
    l ∈ m'.world.flow.graph.listeners n ↔ l ∈ m.world.flow.graph.listeners n ∨
      ∃ react, d = .ask (.listen n react) ∧ (m.world.listen n react).1 = .ok l := by
  have hsame : ∀ {w : World ε τ σ}, w.flow.graph.listeners n = m.world.flow.graph.listeners n →
      (∀ react, d ≠ .ask (.listen n react)) → (l ∈ w.flow.graph.listeners n ↔
        l ∈ m.world.flow.graph.listeners n ∨
          ∃ react, d = .ask (.listen n react) ∧ (m.world.listen n react).1 = .ok l) := by
    intro w hw hne
    rw [hw, or_iff_left]
    rintro ⟨react, heq, -⟩
    exact hne react heq
  cases h with
  | ask q =>
    refine (Request.mem_listeners_perform (Deed.ne_reset hd) hg).trans ?_
    simp only [Deed.ask.injEq]
  | discover _ hfind _ hcreate =>
    obtain ⟨labels, _, heq⟩ := World.create_eq _ hfind
    rw [heq] at hcreate
    subst hcreate
    exact hsame (Graph.listeners_addNodes labels) nofun
  | send => exact hsame (listeners_execute _) nofun
  | _ => exact hsame rfl nofun

theorem Step.getElem?_listeners (h : Step m d m') (hd : d.isReset = false) {i : Nat}
    {react : NodeId → TokenSet τ → Routine ε τ σ} (hi : m.world.engine.listeners[i]? = some react) :
    m'.world.engine.listeners[i]? = some react := by
  cases h with
  | ask q => exact Request.getElem?_perform (Deed.ne_reset hd) hi
  | discover _ hfind _ hcreate =>
    obtain ⟨labels, _, heq⟩ := World.create_eq _ hfind
    rw [heq] at hcreate
    subst hcreate
    exact hi
  | _ => exact hi

/-- A listener that is accepted is at its node afterwards, with its callback. -/
theorem Step.listened {react : NodeId → TokenSet τ → Routine ε τ σ}
    (h : Step m (.ask (.listen n react)) m') (hg : m.world.flow.graph.Grouped)
    (hok : (m.world.listen n react).1 = .ok l) : l ∈ m'.world.flow.graph.listeners n ∧
      m'.world.engine.listeners[l.index]? = some react := by
  refine ⟨(h.mem_listeners rfl hg).mpr (.inr ⟨react, rfl, hok⟩), ?_⟩
  obtain ⟨-, rfl, hlisteners, -⟩ := World.listen_eq_ok hok
  cases h with
  | ask =>
    show (Request.perform _ (.listen n react)).engine.listeners[_]? = some react
    rw [show (Request.perform _ (.listen n react)).engine.listeners = _ from hlisteners]
    simp

/-- **A smooth step tells the listeners of everything**, and what a listener is given it has
heard. -/
theorem Step.hearing (h : Step m d m') (hd : Entry.Smooth ⟨d, m.world⟩)
    (hretaining : ∀ {n f}, m'.world.flow.graph.filter? n = some f → Filter.Retaining f)
    (hm : m.world.Listening m.world.sieve (Heard log)) :
    Hearing m.world.sieve (Heard (log ++ [⟨d, m.world⟩])) m'.world.flow := by
  -- nothing is heard in all steps but one
  have hsilent : ∀ {f : Flow (Filter σ τ) τ}, (∀ n l, Entry.given n l ⟨d, m.world⟩ = none) →
      Hearing m.world.sieve (Heard log) f →
      Hearing m.world.sieve (Heard (log ++ [⟨d, m.world⟩])) f := by
    intro f hgiven hf
    have hheard : Heard (log ++ [⟨d, m.world⟩]) = Heard log := by
      funext n l t
      simp [heard_append, heard_singleton, hgiven]
    rw [hheard]
    exact hf
  cases h with
  | look | discovered | answer | heard | finish => exact hsilent (fun _ _ => rfl) hm.hearing
  | @ask w _ _ q =>
    rcases q.flow_perform w with hflow | ⟨op, hasks, hdoes⟩
    · exact hsilent (fun _ _ => rfl) (hflow ▸ hm.hearing)
    · have hattentive := hm.attentive hd hretaining hasks hdoes
      exact hsilent (fun _ _ => rfl) (hm.hearing.does hdoes hattentive)
  | discover _ hfind _ hcreate =>
    obtain ⟨labels, _, heq⟩ := World.create_eq _ hfind
    rw [heq] at hcreate
    subst hcreate
    exact hsilent (fun _ _ => rfl) (hm.hearing.addNodes labels)
  | beginRound hbag => exact hsilent (fun _ _ => rfl) (hm.hearing.does (.beginRound hbag) trivial)
  | @skip w _ _ _ _ item _ hdone =>
    refine hsilent (fun n l => ?_) hm.hearing
    refine Option.eq_none_iff_forall_ne_some.mpr fun tokens hgiven => ?_
    obtain ⟨rfl, htokens⟩ := Entry.given_execute.mp hgiven
    exact Option.some_ne_none tokens (htokens.symm.trans hdone)
  | send =>
    exact hsilent (fun _ _ => Entry.given_of_ne nofun) (hm.hearing.does (.execute (.send _)) nofun)
  | @hear w bag rest bags errands n l tokens react htake htokens hl =>
    have hheard : Heard (log ++ [⟨.execute (.notify n l), w⟩]) =
        fun m l' t => Heard log m l' t ∨ (m = n ∧ l' = l) ∧ t ∈ tokens := by
      funext m l' t
      simp only [heard_append, heard_singleton, Entry.given_execute, WorkItem.notify.injEq]
      refine propext (or_congr_right ⟨?_, ?_⟩)
      · rintro ⟨tokens', ⟨⟨rfl, rfl⟩, htokens'⟩, ht⟩
        obtain rfl := Option.some.inj (htokens.symm.trans htokens')
        exact ⟨⟨rfl, rfl⟩, ht⟩
      · rintro ⟨⟨rfl, rfl⟩, ht⟩
        exact ⟨tokens, ⟨⟨rfl, rfl⟩, htokens⟩, ht⟩
    rw [hheard]
    exact hm.hearing.collect_notify htokens
  | @lose w bag rest bags errands n l tokens htake htokens hl =>
    -- whoever is attached to a node is registered
    obtain ⟨t, ht⟩ := hm.hearing.kept.exists_waits htokens
    have hlt := hm.registered (hm.hearing.listens (.inr ht))
    exact absurd hlt (Array.getElem?_eq_none_iff.mp hl).not_gt
  | work => exact hsilent (fun _ _ => Entry.given_of_ne nofun) hm.hearing
  | giveBack => exact hd.elim
  | breakOff => exact hsilent (fun _ _ => rfl) (hm.hearing.does (.putBack _) trivial)

theorem Step.listening (h : Step m d m') (hd : Entry.Smooth ⟨d, m.world⟩)
    (hretaining : ∀ {n f}, m'.world.flow.graph.filter? n = some f → Filter.Retaining f)
    (hm : m.world.Listening m.world.sieve (Heard log)) :
    m'.world.Listening m.world.sieve (Heard (log ++ [⟨d, m.world⟩])) where
  hearing := h.hearing hd hretaining hm
  registered {n l} hl := by
    have hgrouped := hm.hearing.wellFormed.grouped
    rcases (h.mem_listeners hd.isReset hgrouped).mp hl with hl | ⟨react, rfl, hok⟩
    · have hi := h.getElem?_listeners hd.isReset (Array.getElem?_eq_getElem (hm.registered hl))
      exact (Array.getElem?_eq_some_iff.mp hi).1
    · exact (Array.getElem?_eq_some_iff.mp (h.listened hgrouped hok).2).1

/-! ## 3. Whole stories -/

omit [DecidableEq ε] in
/-- Filters that let pass what they let pass before do not disturb. -/
theorem World.Listening.resieve {heard : NodeId → ListenerId → τ → Prop} {w w' w₁ : World ε τ σ}
    (h : w₁.Listening w.sieve heard) (hflow : w'.flow = w₁.flow)
    (hlisteners : w'.engine.listeners = w₁.engine.listeners)
    (hretaining : ∀ {n f}, w'.flow.graph.filter? n = some f → Filter.Retaining f)
    (hpasses : w.StillPasses w') : w'.Listening w'.sieve heard where
  hearing := by
    have hhearing := h.hearing
    rw [← hflow] at hhearing
    exact hhearing.resieve (fun _ _ hf => hretaining hf w'.shared)
      fun ht f hf => hpasses _ f _ hf (hhearing.admitted ht f hf)
  registered hl := hlisteners ▸ h.registered (hflow ▸ hl)

/-- **What is known of listeners** when all this has been done. -/
structure Informed (log : List (Entry ε τ σ)) (w : World ε τ σ) : Prop where
  listening : w.Listening w.sieve (Heard log)
  apart : ∀ n l, (heardBy n l log).Pairwise fun earlier later => ∀ t ∈ earlier, t ∉ later
  attached : ∀ {v n react l}, ⟨.ask (.listen n react), v⟩ ∈ log → (v.listen n react).1 = .ok l →
    l ∈ w.flow.graph.listeners n ∧ w.engine.listeners[l.index]? = some react

namespace Informed

omit [DecidableEq ε] in
theorem empty {w : World ε τ σ} {order : BagOrder} (hflow : w.flow = .empty order) :
    Informed [] w where
  listening := by
    have hheard : Heard ([] : List (Entry ε τ σ)) = fun _ _ _ => False := by
      funext n l t
      simp [Heard, heardBy]
    refine ⟨?_, fun {n l} hl => ?_⟩
    · rw [hheard, hflow]
      exact hearing_empty order
    · rw [hflow] at hl
      cases hl
  apart _ _ := .nil
  attached hmem := (by cases hmem)

omit [DecidableEq ε] in
/-- What a listener is given was not given to it before. -/
theorem apart_concat {w : World ε τ σ} (h : Informed log w) (d : Deed ε τ σ) (n : NodeId)
    (l : ListenerId) : (heardBy n l (log ++ [⟨d, w⟩])).Pairwise
      fun earlier later => ∀ t ∈ earlier, t ∉ later := by
  rw [heardBy_append]
  refine List.pairwise_append.mpr
    ⟨h.apart n l, ?_, fun earlier hearlier later hlater t ht ht' => ?_⟩
  · cases hgiven : Entry.given n l ⟨d, w⟩ <;> simp [heardBy, hgiven]
  · have hgiven : Entry.given n l ⟨d, w⟩ = some later := by simpa [heardBy] using hlater
    cases d with
    | execute item =>
      obtain ⟨-, htokens⟩ := Entry.given_execute.mp hgiven
      exact h.listening.hearing.once ⟨earlier, hearlier, ht⟩ ⟨later, htokens, ht'⟩
    | _ => cases hgiven

/-- Whoever is attached stays so. -/
theorem attached_concat (h : Informed log m.world) (hstep : Step m d m') (hd : d.isReset = false)
    {v : World ε τ σ} {react : NodeId → TokenSet τ → Routine ε τ σ}
    (hmem : ⟨.ask (.listen n react), v⟩ ∈ log ++ [⟨d, m.world⟩])
    (hok : (v.listen n react).1 = .ok l) : l ∈ m'.world.flow.graph.listeners n ∧
      m'.world.engine.listeners[l.index]? = some react := by
  have hgrouped := h.listening.hearing.wellFormed.grouped
  rcases List.mem_append.mp hmem with hold | hnew
  · obtain ⟨hl, hreact⟩ := h.attached hold hok
    exact ⟨(hstep.mem_listeners hd hgrouped).mpr (.inl hl), hstep.getElem?_listeners hd hreact⟩
  · cases List.mem_singleton.mp hnew
    exact hstep.listened hgrouped hok

end Informed

/-- **What is known of listeners lasts** through smooth stories. What is set from outside may change
in between, so it is said of every world with this flow and these listeners. -/
theorem lasting_informed (fits : Semantics ε τ σ → Prop) :
    Lasting fits (fun l m => (∀ x ∈ l, x.Smooth) → ∀ w, w.flow = m.world.flow →
      w.engine.listeners = m.world.engine.listeners → Reliable (l.map Entry.world ++ [w]) →
        Informed l w) where
  step {log m d m'} h hstep hsmooth w hflow hlisteners hreliable := by
    obtain ⟨hbefore, hlast⟩ := List.forall_mem_append.mp hsmooth
    have hd : Entry.Smooth ⟨d, m.world⟩ := hlast _ List.mem_cons_self
    rw [List.map_append] at hreliable
    have hinformed : Informed log m.world := h hbefore m.world rfl rfl hreliable.left
    have hretaining := fun {n f} => hreliable.retaining w (by simp) (n := n) (f := f)
    have hpasses : m.world.StillPasses w := by
      have hchain := hreliable.stillPasses
      rw [List.append_assoc] at hchain
      exact List.isChain_pair.mp hchain.right_of_append
    refine ⟨?_, hinformed.apart_concat d, fun hmem hok => ?_⟩
    · exact (hstep.listening hd (hflow ▸ hretaining) hinformed.listening).resieve hflow hlisteners
        hretaining hpasses
    · rw [hflow, hlisteners]
      exact hinformed.attached_concat hstep hd.isReset hmem hok
  new _ _ _ _ _ hflow _ _ := .empty hflow
  install h _ := h
  equip _ _ _ _ _ h := h
  restart _ _ _ hflow _ _ := .empty hflow
  outside h := h

section Stories

variable {fits : Semantics ε τ σ → Prop} {allowed : Deed ε τ σ → Prop} {w : World ε τ σ}

theorem Story.informed (h : Story fits allowed log w) (hsmooth : ∀ x ∈ log, x.Smooth)
    (hreliable : Reliable (log.map Entry.world ++ [w])) : Informed log w :=
  h.holds (lasting_informed fits) hsmooth w rfl rfl hreliable

/-- What is known of listeners at every deed. -/
theorem Story.informed_before {log' : List (Entry ε τ σ)} {x : Entry ε τ σ}
    (h : Story fits allowed (log ++ x :: log') w) (hsmooth : ∀ y ∈ log ++ x :: log', y.Smooth)
    (hreliable : Reliable ((log ++ x :: log').map Entry.world ++ [w])) : Informed log x.world := by
  refine (h.before rfl).informed (fun y hy => hsmooth y (List.mem_append_left _ hy)) ?_
  have hsplit : (log ++ x :: log').map Entry.world ++ [w] =
      (log.map Entry.world ++ [x.world]) ++ (log'.map Entry.world ++ [w]) := by simp
  exact (hsplit ▸ hreliable).left

omit [DecidableEq ε] in
/-- A listener that is new has heard nothing. -/
theorem Informed.not_heard_new (h : Informed log w) :
    ¬ Heard log n ⟨w.engine.listeners.size⟩ t := by
  intro ht
  have hlistens := h.listening.hearing.listens (.inl ht)
  exact Nat.lt_irrefl _ (h.listening.registered hlistens)

omit [DecidableEq ε] in
/-- **The callback of a listener is run with what waits for the listener.** -/
theorem Entry.execute_notify {x : Entry ε τ σ} {react : NodeId → TokenSet τ → Routine ε τ σ}
    (hx : x.deed = .execute (.notify n l))
    (hreact : x.world.engine.listeners[l.index]? = some react)
    (run : Runner ε τ σ) : World.execute run (.notify n l) x.world =
      (x.given n l).elim (some (.ok false, x.world)) fun tokens =>
        (run (react n tokens) (x.world.collected (.notify n l))).map
          (World.heard (.notify n l) tokens) := by
  obtain ⟨d, v⟩ := x
  cases hx
  have hgiven : Entry.given n l ⟨.execute (.notify n l), v⟩ =
      v.flow.agenda.delta? (.notify n l) := if_pos rfl
  rw [hgiven]
  cases htokens : v.flow.agenda.delta? (.notify n l) with
  | none => exact World.execute_done run htokens
  | some tokens => exact World.execute_heard run htokens hreact

/-- **Listeners hear every token exactly once.** A listener is attached in the course of a smooth
story, at any moment. From then on its callback is registered. Whenever an item is executed that
notifies the listener, the callback is run with what waits for the listener, if anything does, and
the item is skipped otherwise. The sets that the callback is given have nothing in common with each
other, nor with what waits now; and they and what waits now are together the tokens of the node. -/
theorem Story.heard_once {before after : List (Entry ε τ σ)} {v : World ε τ σ}
    {react : NodeId → TokenSet τ → Routine ε τ σ}
    (h : Story fits allowed (before ++ ⟨.ask (.listen n react), v⟩ :: after) w)
    (hsmooth : ∀ x ∈ before ++ ⟨.ask (.listen n react), v⟩ :: after, x.Smooth)
    (hreliable :
      Reliable ((before ++ ⟨.ask (.listen n react), v⟩ :: after).map Entry.world ++ [w]))
    (hlisten : (v.listen n react).1 = .ok l) :
    w.engine.listeners[l.index]? = some react ∧
    (∀ x ∈ after, x.deed = .execute (.notify n l) → ∀ run,
      World.execute run (.notify n l) x.world = (x.given n l).elim (some (.ok false, x.world))
        fun tokens => (run (react n tokens) (x.world.collected (.notify n l))).map
          (World.heard (.notify n l) tokens)) ∧
    ((heardBy n l after).Pairwise fun earlier later => ∀ t ∈ earlier, t ∉ later) ∧
    (∀ tokens ∈ heardBy n l after, ∀ t ∈ tokens, ¬ w.flow.agenda.Waits (.notify n l) t) ∧
    ∀ t, t ∈ w.flow.graph.tokens n ↔
      (∃ tokens ∈ heardBy n l after, t ∈ tokens) ∨ w.flow.agenda.Waits (.notify n l) t := by
  have hinformed := h.informed hsmooth hreliable
  obtain ⟨hl, hreact⟩ := hinformed.attached
    (List.mem_append_right before List.mem_cons_self) hlisten
  have hsplit := List.append_cons before ⟨.ask (.listen n react), v⟩ after
  -- whatever the listener has heard, it has heard since it was attached
  have hheard : ∀ t, Heard (before ++ ⟨.ask (.listen n react), v⟩ :: after) n l t ↔
      Heard after n l t := by
    intro t
    have hnew : ¬ Heard before n l t := by
      obtain ⟨-, rfl, -, -⟩ := World.listen_eq_ok hlisten
      exact (h.informed_before hsmooth hreliable).not_heard_new
    rw [hsplit, heard_append, heard_append, heard_singleton]
    simp [hnew, Entry.given]
  refine ⟨hreact, fun x hx hdeed run => ?_, ?_, fun tokens htokens t ht => ?_, fun t => ?_⟩
  · -- the callback is registered where the item is executed, too
    obtain ⟨a, a', rfl⟩ := List.append_of_mem hx
    rw [← List.cons_append, ← List.append_assoc] at h hsmooth hreliable
    have hthere := (h.informed_before hsmooth hreliable).attached (by simp) hlisten
    exact Entry.execute_notify hdeed hthere.2 run
  · have hapart := hinformed.apart n l
    rw [hsplit, heardBy_append] at hapart
    exact (List.pairwise_append.mp hapart).2.1
  · exact hinformed.listening.hearing.once ((hheard t).mpr ⟨tokens, htokens, ht⟩)
  · exact (hinformed.listening.hearing.complete hl).trans (or_congr_left (hheard t))

end Stories

/-- A dog, a cat and another dog. Of dogs it is known that they are animals. -/
def petRegistry : TypeRegistry :=
  let r := (TypeRegistry.empty.declare "Dog" ["Animal"]).2
  let r := (r.object "Dog" "kennel").2
  let r := (r.object "Cat" "roof").2
  (r.object "Dog" "street").2

def petWorld : World Unit Symbol TypeRegistry where
  engine := { Engine.new default with tokenManager := some TypeRegistry.sharedManager }
  shared := petRegistry

/-- The first node is for animals and leads to a circle of two others. A dog and a cat come to it,
and the dog gets to the second node. -/
def layPens : Routine Unit Symbol TypeRegistry :=
  .addNode fun a => .addNode fun b => .addNode fun c => .filterByType a "Animal" fun _ =>
    .link a b fun _ => .link b c fun _ => .link c b fun _ =>
      .deliver a (.ofList [0, 1]) fun _ => .round fun _ => .done

def stockedWorld : World Unit Symbol TypeRegistry :=
  ((World.run 2 layPens petWorld).getD (.ok (), petWorld)).2

/-- Cats are animals, too. -/
def taughtWorld : World Unit Symbol TypeRegistry :=
  { stockedWorld with shared := (stockedWorld.shared.declare "Cat" ["Animal"]).2 }

/-- A listener that sends the other dog to the third node and has the circle condensed. -/
def fetchDog (_ : NodeId) (_ : TokenSet Symbol) : Routine Unit Symbol TypeRegistry :=
  .deliver ⟨2⟩ (.singleton 2) fun _ => .condense fun _ => .done

/-- The listener is attached to the second node, which has the dog. After two rounds the cat comes
again, and now it passes. -/
def watchPen : Routine Unit Symbol TypeRegistry :=
  .listen ⟨1⟩ fetchDog fun _ => .round fun _ => .round fun _ =>
    .deliver ⟨0⟩ (.singleton 1) fun _ => .round fun _ => .done

theorem run_layPens : World.run 2 layPens petWorld = some (.ok (), stockedWorld) := by
  obtain ⟨⟨answer, w⟩, hrun, heq⟩ := Option.map_eq_some_iff.mp
    (by decide +kernel : (World.run 2 layPens petWorld).map Prod.fst = some (.ok ()))
  cases heq
  have hstocked : stockedWorld = w := by
    unfold stockedWorld
    rw [hrun]
    rfl
  rw [hrun, hstocked]

/-- All filters of both calls can be relied on, though the registry learns in between. -/
theorem reliable_pens {w : World Unit Symbol TypeRegistry}
    (hrun : World.run 2 watchPen taughtWorld = some (.ok (), w)) :
    Story (fun _ => True) (fun deed => deed.isReset = false)
        (World.deeds 2 layPens petWorld ++ World.deeds 2 watchPen taughtWorld) w ∧
      Reliable ((World.deeds 2 layPens petWorld ++ World.deeds 2 watchPen taughtWorld).map
        Entry.world ++ [w]) := by
  have hget : ∀ (r : TypeRegistry) (_ : TypeRegistry), (fun r : TypeRegistry => r) r = r :=
    fun _ _ => rfl
  have hfree : ∀ x ∈ World.deeds 2 layPens petWorld, x.isReset = false := by decide +kernel
  have hfree' : ∀ x ∈ World.deeds 2 watchPen taughtWorld, x.isReset = false := by decide +kernel
  have hnew : Story (fun _ => True) (fun deed => deed.isReset = false) [] petWorld :=
    .equip (some TypeRegistry.sharedManager) none .unstable petRegistry true
      (.new default petRegistry true)
  have hstocked := hnew.call hfree run_layPens
  have htaught : Story (fun _ => True) (fun deed => deed.isReset = false)
      (World.deeds 2 layPens petWorld) taughtWorld :=
    .equip stockedWorld.engine.tokenManager stockedWorld.engine.environment
      stockedWorld.engine.phase _ stockedWorld.active hstocked
  have hstory := htaught.call hfree' hrun
  obtain ⟨hput, hgrows, hsetup⟩ := World.run_typed hget (w := petWorld) rfl rfl
    (by decide +kernel) run_layPens
  obtain ⟨hput', hgrows', -⟩ := World.run_typed hget (w := taughtWorld)
    (congrArg Setup.tokenManager hsetup) (congrArg Setup.phase hsetup) (by decide +kernel) hrun
  refine ⟨hstory, hstory.reliable (List.forall_mem_append.mpr ⟨hfree, hfree'⟩)
    (List.forall_mem_append.mpr ⟨hput, hput'⟩) ?_⟩
  rw [List.map_append] at hgrows
  rw [@List.map_append _ _ Entry.world, List.append_assoc, List.map_append]
  obtain ⟨hleft, -, hend⟩ := List.isChain_append.mp hgrows
  refine hleft.append hgrows' fun r hr r' hr' => ?_
  cases hr'
  exact (hend r hr _ rfl).trans (TypeRegistry.grows_declare _ _ _)

/-- The listener hears of the dog that was there when it was attached, and then of the one that came
by condensing; the cat waits for it. -/
theorem heard_once_pens : ∃ w after, World.deeds 2 watchPen taughtWorld =
      ⟨.ask (.listen ⟨1⟩ fetchDog), taughtWorld⟩ :: after ∧
    Story (fun _ => True) (fun deed => deed.isReset = false)
      (World.deeds 2 layPens petWorld ++ ⟨.ask (.listen ⟨1⟩ fetchDog), taughtWorld⟩ :: after) w ∧
    stockedWorld.shared.admits 1 1 = false ∧ taughtWorld.shared.admits 1 1 = true ∧
    w.flow.graph.representative ⟨2⟩ = ⟨1⟩ ∧
    heardBy ⟨1⟩ ⟨0⟩ after = [.singleton 0, .singleton 2] ∧
    (∃ x ∈ after, ∀ run, World.execute run (.notify ⟨1⟩ ⟨0⟩) x.world =
      (run (fetchDog ⟨1⟩ (.singleton 2)) (x.world.collected (.notify ⟨1⟩ ⟨0⟩))).map
        (World.heard (.notify ⟨1⟩ ⟨0⟩) (.singleton 2))) ∧
    (∀ t, t ∈ w.flow.graph.tokens ⟨1⟩ ↔
      (t = 0 ∨ t = 2) ∨ w.flow.agenda.Waits (.notify ⟨1⟩ ⟨0⟩) t) ∧
    ¬ w.flow.agenda.Waits (.notify ⟨1⟩ ⟨0⟩) 0 ∧ w.flow.agenda.Waits (.notify ⟨1⟩ ⟨0⟩) 1 := by
  have hfacts : (World.run 2 watchPen taughtWorld).map (fun done =>
      (done.1, done.2.flow.graph.representative ⟨2⟩, done.2.flow.graph.tokens ⟨1⟩)) =
        some (.ok (), ⟨1⟩, .ofList [0, 1, 2]) := by decide +kernel
  obtain ⟨⟨answer, w⟩, hrun, heq⟩ := Option.map_eq_some_iff.mp hfacts
  simp only [Prod.mk.injEq] at heq
  obtain ⟨rfl, hrep, htokens⟩ := heq
  obtain ⟨hstory, hreliable⟩ := reliable_pens hrun
  have hsmooth : ∀ x ∈ World.deeds 2 layPens petWorld ++ World.deeds 2 watchPen taughtWorld,
      x.Smooth :=
    List.forall_mem_append.mpr ⟨by decide +kernel, by decide +kernel⟩
  have hall : heardBy ⟨1⟩ ⟨0⟩ (World.deeds 2 watchPen taughtWorld) =
    [.singleton 0, .singleton 2] := by decide +kernel
  obtain ⟨after, hafter⟩ : ∃ after, World.deeds 2 watchPen taughtWorld =
    ⟨.ask (.listen ⟨1⟩ fetchDog), taughtWorld⟩ :: after := ⟨_, rfl⟩
  rw [hafter] at hstory hsmooth hreliable hall
  have hheard : heardBy ⟨1⟩ ⟨0⟩ after = [.singleton 0, .singleton 2] := hall
  have hgiven : ∀ t, (∃ tokens ∈ heardBy ⟨1⟩ ⟨0⟩ after, t ∈ tokens) ↔ t = 0 ∨ t = 2 := by
    simp [hheard]
  obtain ⟨-, hcalled, -, hdisjoint, hunion⟩ :=
    hstory.heard_once hsmooth hreliable (by decide +kernel : _ = Except.ok ⟨0⟩)
  refine ⟨w, after, hafter, hstory, by decide +kernel, by decide +kernel, hrep, hheard, ?_,
    fun t => (hunion t).trans (or_congr_left (hgiven t)), ?_, ?_⟩
  · obtain ⟨x, hx, hdog⟩ : ∃ x ∈ after, x.given ⟨1⟩ ⟨0⟩ = some (.singleton 2) :=
      List.mem_filterMap.mp (by rw [← heardBy, hheard]; simp)
    refine ⟨x, hx, fun run => (hcalled x hx (Entry.deed_of_given hdog) run).trans ?_⟩
    rw [hdog]
    rfl
  · exact hdisjoint (.singleton 0) (by simp [hheard]) 0 (by simp)
  · have hcat : (1 : Symbol) ∈ w.flow.graph.tokens ⟨1⟩ := by
      rw [htokens]
      decide
    refine ((hunion 1).mp hcat).resolve_left fun hold => ?_
    rcases (hgiven 1).mp hold with h | h <;> cases h

end ValueFlow
