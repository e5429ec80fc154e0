import ValueFlow.Proofs.Network.Discovery

/-!
# Rounds on a network

While a round is worked off, items leave its bag one by one. Tokens are delivered, and tasks link
entities to their successors, which may bring up new ones. After every item all entities that are
known have been taken care of (`Network.Complete`), and work is queued only where the graph has
grown.
-/

namespace ValueFlow.Network

open ValueFlow.Flow

variable {ε τ σ : Type} [Ordered τ] [DecidableEq ε]

/-- A stage at which all entities that are known have been taken care of. -/
structure Complete (p : Network ε τ) (roots : List ε) (s : σ) (cs : List (Command (Filter σ τ) τ))
    (bags : List (Bag WorkItem)) (w : World ε τ σ) : Prop extends Stage p roots s cs bags w where
  covered : ∀ {v n}, w.At v n → p.Covered cs bags w v n

variable {p : Network ε τ} {roots : List ε} {s : σ} {cs : List (Command (Filter σ τ) τ)}
  {bags bags' : List (Bag WorkItem)} {bag rest : Bag WorkItem} {w w' : World ε τ σ}
  {item : WorkItem} {depth : Nat}

/-! ## 1. Steps on the flow -/

/-- A step on the flow after which the same tasks are due. -/
theorem Complete.step {c : Command (Filter σ τ) τ} (h : p.Complete roots s cs bags w)
    (hstep : Machine.Step (sieveAt s) ⟨w.flow, bags⟩ c ⟨w'.flow, bags'⟩)
    (hc : p.Asks w.entities c) (hnew : ∀ label, c ≠ .addNode label)
    (hframe : w'.frame = w.frame) (hfacts : w.flow.graph.facts ⊆ w'.flow.graph.facts)
    (hdue : ∀ task, (w.engine.tasks.get? task).isSome → Due bags w task → Due bags' w' task) :
    p.Complete roots s (cs ++ [c]) bags' w' := by
  have hentities := World.entities_of_frame hframe
  have htasks : w'.engine.tasks = w.engine.tasks := congrArg Frame.tasks hframe
  have hat : ∀ {v n}, w'.At v n ↔ w.At v n := fun {v n} => by
    unfold World.At
    rw [hentities]
  refine ⟨h.toStage.step hstep hc hnew hframe, fun {v n} hv => ?_⟩
  obtain ⟨hentered, hspread⟩ := h.covered (hat.mp hv)
  refine ⟨hentered.append c, hspread.imp (fun hjoined u hu => ?_) fun hpending => ?_⟩
  · obtain ⟨m, hm, hl⟩ := hjoined u hu
    exact ⟨m, hat.mpr hm, hfacts (a := .link n m) hl⟩
  · obtain ⟨task, htask, hd⟩ := hpending
    refine ⟨task, ?_, hdue task (by rw [htask]; rfl) hd⟩
    rw [htasks]
    exact htask

/-- Nothing waits for tasks or listeners. -/
theorem Stage.delta?_eq_none (h : Stage p roots s cs bags w) (hitem : ∀ n, item ≠ .send n) :
    w.flow.agenda.delta? item = none := by
  obtain ⟨order, hrun⟩ := h.run
  have hunheard := hrun.unheard fun n l hc => h.asked _ hc
  cases hd : w.flow.agenda.delta? item with
  | none => rfl
  | some delta =>
    have hne := hrun.inv.kept.nonempty hd
    rw [← Bool.not_eq_true, SortedSet.isEmpty_eq_true] at hne
    obtain ⟨t, ht⟩ := Classical.not_forall.mp hne
    obtain ⟨n, hn⟩ := hunheard.waits ⟨delta, hd, Classical.not_not.mp ht⟩
    exact absurd hn (hitem n)

omit [DecidableEq ε] in
/-- Other items stay due. -/
theorem due_of_take (hsound : bag.Sound) (htake : bag.take = (some item, rest)) {task : TaskId}
    (hne : item ≠ .task task) (hgrows : w.flow.Grows w'.flow) (hdue : Due [bag] w task) :
    Due [rest] w' task := by
  refine hdue.imp (hgrows.tasks task) fun hb => ?_
  obtain ⟨b, hb, ht⟩ := hb
  rw [List.mem_singleton.mp hb] at ht
  obtain ⟨-, hrest, -⟩ := Bag.take_eq_some hsound htake
  exact ⟨rest, List.mem_singleton_self rest, (hrest _).mpr ⟨hne.symm, ht⟩⟩

/-! ## 2. Executing an item -/

omit [DecidableEq ε] in
theorem execute_send (run : Runner ε τ σ) (w : World ε τ σ) (n : NodeId) :
    ∃ did, World.execute run (.send n) w =
      some (.ok did, w.setFlow (w.flow.execute w.sieve (.send n)).2) := by
  unfold World.execute World.collect Flow.execute Agenda.collect
  cases w.flow.agenda.delta? (.send n) with
  | none => exact ⟨false, rfl⟩
  | some tokens => exact ⟨true, rfl⟩

omit [DecidableEq ε] in
theorem execute_notify {run : Runner ε τ σ} {n : NodeId} {l : ListenerId}
    (hd : w.flow.agenda.delta? (.notify n l) = none) :
    World.execute run (.notify n l) w = some (.ok false, w) := by
  have hcollect : w.collect (.notify n l) = (none, w) := by
    unfold World.collect
    rw [show w.flow.agenda.collect (.notify n l) = (none, w.flow.agenda) from
      Prod.ext hd (Agenda.collect_of_delta? hd)]
    rfl
  unfold World.execute
  rw [hcollect]

/-- **An item that is no task** only works on the flow, and so does a task that is gone. -/
theorem Complete.execute_flow (h : p.Complete roots s cs [bag] w)
    (htake : bag.take = (some item, rest))
    (hitem : ∀ task, item = .task task → w.engine.tasks.get? task = none) :
    p.Complete roots s (cs ++ [.execute]) [rest]
        (w.setFlow (w.flow.execute (sieveAt s) item).2) ∧
      w.flow.Advances (w.flow.execute (sieveAt s) item).2 := by
  obtain ⟨order, hrun⟩ := h.run
  have hsound := hrun.inv.sound bag (List.mem_singleton_self bag)
  have hstep : Machine.Step (sieveAt s) ⟨w.flow, [bag]⟩ .execute
      ⟨(w.flow.execute (sieveAt s) item).2, [rest]⟩ := .execute w.flow [] [] htake
  have hadv := hrun.inv.advances_step hstep rfl
  refine ⟨h.step hstep trivial nofun rfl hadv.facts fun task hsome hdue => ?_, hadv⟩
  refine due_of_take hsound htake (fun e => ?_) hadv.toGrows hdue
  rw [hitem task e] at hsome
  cases hsome

/-- The world in which a task runs: it is no longer in the table. -/
def withoutTask (w : World ε τ σ) (task : TaskId) : World ε τ σ :=
  { w with engine := { w.engine with tasks := w.engine.tasks.erase task } }

/-- To take a task out of the table changes nothing else. -/
theorem Stage.erase (h : Stage p roots s cs bags w) (task : TaskId) :
    Stage p roots s cs bags (withoutTask w task) := by
  refine { h with tasks := fun {id r} hid => h.tasks ?_ }
  have hget := Table.get?_erase w.engine.tasks task id
  split at hget
  · cases hget.symm.trans hid
  · exact hget.symm.trans hid

/-- A node that is left to a task is left to the one that is taken, or to another that is still
due. -/
theorem Pending.of_take {task : TaskId} {r : Routine ε τ σ} {v : ε} {n : NodeId}
    (hsound : bag.Sound) (htake : bag.take = (some (.task task), rest))
    (htask : w.engine.tasks.get? task = some r) (h : p.Pending [bag] w v n) :
    r = connect n (p.successors v) ∨ p.Pending [rest] (withoutTask w task) v n := by
  obtain ⟨other, hother, hdue⟩ := h
  by_cases hsame : other = task
  · subst hsame
    exact .inl (Option.some.inj (htask.symm.trans hother))
  · refine .inr ⟨other, ?_, ?_⟩
    · exact (Table.get?_erase _ _ _).trans ((if_neg (Ne.symm hsame)).trans hother)
    · exact due_of_take hsound htake (fun e => hsame (WorkItem.task.inj e).symm)
        (Advances.refl w.flow).toGrows hdue

/-- **A task links its entity**, and all entities that come up are taken care of. -/
theorem Complete.execute_task {task : TaskId} {r : Routine ε τ σ}
    (h : p.Complete roots s cs [bag] w) (htake : bag.take = (some (.task task), rest))
    (htask : w.engine.tasks.get? task = some r)
    (hroom : (p.candidates roots).length ≤ w.entities.length + depth) :
    ∃ cs' w', World.execute (World.run (depth + 1)) (.task task) w = some (.ok true, w') ∧
      p.Complete roots s cs' [rest] w' ∧ w.flow.Advances w'.flow ∧
      w.entities <+: w'.entities := by
  obtain ⟨order, hrun⟩ := h.run
  have hsound := hrun.inv.sound bag (List.mem_singleton_self bag)
  have hstep : Machine.Step (sieveAt s) ⟨w.flow, [bag]⟩ .execute
      ⟨(w.flow.execute (sieveAt s) (.task task)).2, [rest]⟩ := .execute w.flow [] [] htake
  have hd : w.flow.agenda.delta? (.task task) = none := h.delta?_eq_none nofun
  rw [execute_of_delta? hd] at hstep
  have hstage : Stage p roots s (cs ++ [.execute]) [rest] (withoutTask w task) :=
    (h.toStage.step hstep trivial nofun rfl).erase task
  -- what running the task comes to, whichever entity it was left for
  have hconnect : ∀ {v n}, w.At v n → r = connect n (p.successors v) →
      ∃ cs' w', r.runWith (World.run depth) (withoutTask w task) = some (.ok (), w') ∧
        p.Explores roots s [rest] (cs ++ [.execute]) (withoutTask w task) cs' w' ∧
        w.flow.Advances w'.flow ∧ Joined w' n (p.successors v) := fun {v n} hv hr =>
    hr ▸ connect_spec (finds p roots s [rest] depth) (p.successors v) _ _ hstage hv
      (fun x hx => mem_successors.mp hx) hroom
  obtain ⟨-, v, n, hv, hr⟩ := h.tasks htask
  obtain ⟨cs', w', hrunr, hex, hadv, -⟩ := hconnect hv hr
  refine ⟨cs', w', ?_, ⟨hex.stage, fun {u m} hu => ?_⟩, hadv, hex.entities⟩
  · have hrunr : World.run (depth + 1) r (withoutTask w task) = some (.ok (), w') := hrunr
    unfold withoutTask at hrunr
    simp only [World.execute, htask]
    rw [hrunr]
  · by_cases hnew : w.entities.length ≤ m.index
    · exact hex.covered hu hnew
    · have hold : w.At u m := hex.toLeads.at_of_lt hu (Nat.lt_of_not_le hnew)
      obtain ⟨hentered, hspread⟩ := h.covered hold
      refine ⟨hex.toLeads.entered (hentered.append _), ?_⟩
      rcases hspread with hjoined | hpending
      · exact .inl (hex.toLeads.joined hjoined)
      · rcases hpending.of_take hsound htake htask with hr' | hpending
        · -- the entity waited for this very task
          obtain ⟨_, w'', hrun'', -, -, hjoined⟩ := hconnect hold hr'
          have hw : w'' = w' := by
            rw [hrunr] at hrun''
            cases hrun''
            rfl
          exact .inl (hw ▸ hjoined)
        · exact .inr (hex.toLeads.pending hpending)

/-- **Executing an item** never fails, and leaves no entity without care. -/
theorem Complete.execute (h : p.Complete roots s cs [bag] w)
    (htake : bag.take = (some item, rest))
    (hroom : (p.candidates roots).length ≤ w.entities.length + depth) :
    ∃ did cs' w', World.execute (World.run (depth + 1)) item w = some (.ok did, w') ∧
      p.Complete roots s cs' [rest] w' ∧ w.flow.Advances w'.flow ∧
      w.entities <+: w'.entities := by
  cases item with
  | send n =>
    obtain ⟨did, hexec⟩ := execute_send (World.run (depth + 1)) w n
    obtain ⟨hcomplete, hadv⟩ := h.execute_flow htake nofun
    rw [h.sieve] at hexec
    exact ⟨did, _, _, hexec, hcomplete, hadv, List.prefix_rfl⟩
  | notify n l =>
    have hd : w.flow.agenda.delta? (.notify n l) = none := h.delta?_eq_none nofun
    obtain ⟨hcomplete, hadv⟩ := h.execute_flow htake nofun
    rw [execute_of_delta? hd] at hcomplete hadv
    exact ⟨false, _, _, execute_notify hd, hcomplete, hadv, List.prefix_rfl⟩
  | task task =>
    cases htask : w.engine.tasks.get? task with
    | none =>
      obtain ⟨hcomplete, hadv⟩ := h.execute_flow htake fun other e => by
        cases e
        exact htask
      have hd : w.flow.agenda.delta? (.task task) = none := h.delta?_eq_none nofun
      rw [execute_of_delta? hd] at hcomplete hadv
      refine ⟨false, _, _, ?_, hcomplete, hadv, List.prefix_rfl⟩
      simp only [World.execute, htask]
      rfl
    | some r =>
      obtain ⟨cs', w', hrest⟩ := h.execute_task htake htask hroom
      exact ⟨true, cs', w', hrest⟩

/-! ## 3. Rounds -/

/-- **A bag is worked off to the end.** -/
theorem Complete.executeBag (count : Nat) :
    ∀ (bag : Bag WorkItem) (executed : Nat) (cs : List (Command (Filter σ τ) τ)) (w : World ε τ σ),
      p.Complete roots s cs [bag] w → bag.present.length ≤ count →
      (p.candidates roots).length ≤ w.entities.length + depth →
      ∃ last progress cs' w', World.executeBag (World.run (depth + 1)) count bag executed w =
          some (progress, w') ∧ progress.failure = none ∧
        p.Complete roots s cs' [last] w' ∧ last.present = [] ∧ w.flow.Advances w'.flow ∧
        w.entities <+: w'.entities := by
  induction count with
  | zero =>
    intro bag executed cs w h hcount _
    have hempty : bag.present = [] := List.length_eq_zero_iff.mp (Nat.le_zero.mp hcount)
    exact ⟨bag, _, cs, w, rfl, rfl, h, hempty, .refl _, List.prefix_rfl⟩
  | succ count ih =>
    intro bag executed cs w h hcount hroom
    obtain ⟨order, hrun⟩ := h.run
    have hsound := hrun.inv.sound bag (List.mem_singleton_self bag)
    cases htake : bag.take with
    | mk first rest =>
      cases first with
      | none =>
        have hempty := Bag.take_eq_none hsound (congrArg Prod.fst htake)
        refine ⟨bag, ⟨rest, executed, none⟩, cs, w, ?_, rfl, h, hempty, .refl _, List.prefix_rfl⟩
        simp only [World.executeBag, htake]
      | some item =>
        obtain ⟨did, cs₁, w₁, hexec, h₁, hadv₁, hpre₁⟩ := h.execute htake hroom
        have hlen := Bag.length_take htake
        have hlen₁ := hpre₁.length_le
        obtain ⟨last, progress, cs₂, w₂, hbag, hfail, h₂, hempty, hadv₂, hpre₂⟩ :=
          ih rest (if did then executed + 1 else executed) cs₁ w₁ h₁ (by omega) (by omega)
        refine ⟨last, progress, cs₂, w₂, ?_, hfail, h₂, hempty, hadv₁.trans hadv₂,
          hpre₁.trans hpre₂⟩
        simp only [World.executeBag, htake, hexec]
        exact hbag

/-- A bag without items is put away. -/
theorem Complete.finish (h : p.Complete roots s cs [bag] w) (hempty : bag.present = [])
    (hflow : w'.flow = w.flow) (hframe : w'.frame = w.frame) :
    p.Complete roots s (cs ++ [.finish]) [] w' := by
  have hstep : Machine.Step (sieveAt s) ⟨w.flow, [bag]⟩ .finish ⟨w'.flow, []⟩ := by
    rw [hflow]
    exact .finish w.flow [] [] (List.isEmpty_iff.mpr hempty)
  refine h.step hstep trivial nofun hframe (fun _ hx => hflow ▸ hx) fun task _ hdue => ?_
  rcases hdue with hdue | ⟨b, hb, ht⟩
  · exact .inl (hflow ▸ hdue)
  · rw [List.mem_singleton.mp hb, hempty] at ht
    exact absurd ht List.not_mem_nil

/-- The bag of the next round is handed out. -/
theorem Complete.startRound {agenda : Agenda τ} (h : p.Complete roots s cs [] w)
    (hstart : w.flow.agenda.startRound = some (bag, agenda))
    (hflow : w'.flow = { w.flow with agenda }) (hframe : w'.frame = w.frame) :
    p.Complete roots s (cs ++ [.beginRound]) [bag] w' := by
  have hstep : Machine.Step (sieveAt s) ⟨w.flow, []⟩ .beginRound ⟨w'.flow, [bag]⟩ := by
    rw [hflow]
    exact .beginRound ⟨w.flow, []⟩ hstart
  obtain ⟨rfl, -⟩ := Agenda.startRound_eq_some hstart
  refine h.step hstep trivial nofun hframe (fun _ hx => ?_) fun task _ hdue => ?_
  · rw [hflow]
    exact hx
  · rcases hdue with hdue | ⟨b, hb, _⟩
    · exact .inr ⟨_, List.mem_singleton_self _, hdue⟩
    · exact absurd hb List.not_mem_nil

/-- **A round** does all queued work, and queues new work only where the graph grows. -/
theorem Complete.round (h : p.Complete roots s cs [] w)
    (hroom : (p.candidates roots).length ≤ w.entities.length + depth) :
    World.round (World.run (depth + 1)) w = some (.ok none, w) ∧
        w.flow.agenda.next.present = [] ∨
      ∃ count cs' w', World.round (World.run (depth + 1)) w = some (.ok (some count), w') ∧
        p.Complete roots s cs' [] w' ∧ w.entities <+: w'.entities ∧
        w.flow.graph.facts ⊆ w'.flow.graph.facts ∧
        (w'.flow.graph.facts ⊆ w.flow.graph.facts → w'.flow.agenda.next.present = []) := by
  unfold World.round
  cases hstart : w.flow.agenda.startRound with
  | none =>
    exact .inl ⟨rfl, Agenda.startRound_eq_none.mp hstart⟩
  | some start =>
    obtain ⟨bag, agenda⟩ := start
    let w₁ : World ε τ σ := { w with engine :=
      { w.engine with
        flow := { w.engine.flow with agenda }
        stats := { w.engine.stats with rounds := w.engine.stats.rounds + 1 } } }
    have h₁ : p.Complete roots s (cs ++ [.beginRound]) [bag] w₁ := h.startRound hstart rfl rfl
    obtain ⟨last, progress, cs₂, w₂, hbag, hfail, h₂, hempty, hadv, hpre⟩ :=
      Complete.executeBag bag.size bag 0 _ w₁ h₁ (Nat.le_refl _) hroom
    have hagenda : agenda.next.present = [] := by
      rw [(Agenda.startRound_eq_some hstart).2]
      rfl
    let w₃ : World ε τ σ := { w₂ with engine :=
      { w₂.engine with
        workSincePass := w₂.engine.workSincePass + progress.executed
        stats := { w₂.engine.stats with work := w₂.engine.stats.work + progress.executed } } }
    have h₃ : p.Complete roots s (cs₂ ++ [.finish]) [] w₃ := h₂.finish hempty rfl rfl
    refine .inr ⟨progress.executed, _, w₃, ?_, h₃, hpre, hadv.facts, fun hsub => ?_⟩
    · show (World.executeBag (World.run (depth + 1)) bag.size bag 0 w₁).map _ = _
      rw [hbag]
      simp only [Option.map_some, World.finishRound, hfail]
      rfl
    · refine List.eq_nil_of_subset_nil fun item hi => ?_
      rw [← hagenda]
      exact hadv.idle hsub hi

/-- **A pass between two rounds** leaves no entity without care either. -/
theorem Complete.condenseIfDue (h : p.Complete roots s cs [] w) :
    ∃ cs', p.Complete roots s cs' [] w.condenseIfDue.2 ∧
      w.flow.Advances w.condenseIfDue.2.flow ∧ w.condenseIfDue.2.entities = w.entities := by
  unfold World.condenseIfDue
  split
  · obtain ⟨order, hrun⟩ := h.run
    have hstep : Machine.Step (sieveAt s) ⟨w.flow, []⟩ (.condense w.flow.graph.ids)
        ⟨w.condense.2.flow, []⟩ := .condense ⟨w.flow, []⟩ w.flow.graph.ids
    have hadv := hrun.inv.advances_step hstep rfl
    refine ⟨_, h.step hstep trivial nofun rfl hadv.facts fun task _ hdue => ?_, hadv, rfl⟩
    exact hdue.imp (hadv.tasks task) id
  · exact ⟨cs, h, .refl _, rfl⟩

end ValueFlow.Network
