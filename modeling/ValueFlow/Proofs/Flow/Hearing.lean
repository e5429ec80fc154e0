import ValueFlow.Proofs.Flow.Histories

/-!
# What listeners hear

Tokens come to a listener on three ways: those that the node has when the listener is attached,
those that are delivered to its component, and those that the component gets by fusing. Every time
it is another difference that is posted. `Hearing` says what they come to: what the listener has
heard and what waits for it have nothing in common, and together they are the tokens of its node.

Filters must decide token by token, and a new one must let pass what its node has (`Attentive`).
-/

namespace ValueFlow.Flow

open ValueFlow.Graph

variable {φ τ : Type} [Ordered τ] {sieve : φ → TokenSet τ → TokenSet τ} {f f' : Flow φ τ}
  {op : Operation φ τ} {heard : NodeId → ListenerId → τ → Prop} {n : NodeId} {l : ListenerId}
  {tokens : TokenSet τ} {t : τ}

/-- **What has been heard and what waits for the listeners are the tokens of their nodes.** -/
structure Hearing (sieve : φ → TokenSet τ → TokenSet τ)
    (heard : NodeId → ListenerId → τ → Prop) (f : Flow φ τ) : Prop extends Sturdy sieve f where
  admitted : ∀ {n t}, t ∈ f.graph.tokens n → f.graph.Admits sieve n t
  listens : ∀ {n l t}, heard n l t ∨ f.agenda.Waits (.notify n l) t → l ∈ f.graph.listeners n
  once : ∀ {n l t}, heard n l t → ¬ f.agenda.Waits (.notify n l) t
  complete : ∀ {n l t}, l ∈ f.graph.listeners n →
    (t ∈ f.graph.tokens n ↔ heard n l t ∨ f.agenda.Waits (.notify n l) t)

theorem hearing_empty (order : BagOrder) :
    Hearing sieve (fun _ _ _ => False) (.empty order : Flow φ τ) where
  toSturdy := sturdy_empty order
  admitted ht := absurd ht (SortedSet.not_mem_empty _)
  listens h := h.elim False.elim fun hw => absurd hw (Agenda.waits_empty order _ _)
  once := False.elim
  complete hl := absurd hl List.not_mem_nil

/-! ## 1. Operations that no listener hears of -/

theorem Hearing.of_unheard (h : Hearing sieve heard f) (hs : Sturdy sieve f')
    (htokens : ∀ n, f'.graph.tokens n = f.graph.tokens n)
    (hadmits : ∀ n t, t ∈ f.graph.tokens n → f'.graph.Admits sieve n t)
    (hlisteners : ∀ n, f'.graph.listeners n = f.graph.listeners n)
    (hwaits : ∀ n l t, f'.agenda.Waits (.notify n l) t ↔ f.agenda.Waits (.notify n l) t) :
    Hearing sieve heard f' where
  toSturdy := hs
  admitted ht := hadmits _ _ (htokens _ ▸ ht)
  listens hl := by
    rw [hlisteners]
    exact h.listens (hl.imp_right (hwaits _ _ _).mp)
  once hh hw := h.once hh ((hwaits _ _ _).mp hw)
  complete hl := by
    rw [htokens, hwaits]
    exact h.complete (hlisteners _ ▸ hl)

theorem Hearing.of_agenda {a : Agenda τ} (h : Hearing sieve heard f)
    (hs : Sturdy sieve { f with agenda := a })
    (hwaits : ∀ n l t, a.Waits (.notify n l) t ↔ f.agenda.Waits (.notify n l) t) :
    Hearing sieve heard { f with agenda := a } :=
  h.of_unheard hs (fun _ => rfl) (fun _ _ => h.admitted) (fun _ => rfl) hwaits

theorem Hearing.addNode (h : Hearing sieve heard f) (label : Option Label) :
    Hearing sieve heard (f.addNode label).2 := by
  refine h.of_unheard (h.toSturdy.addNode label) (fun n => tokens_addNode (g := f.graph))
    (fun n t ht => ?_) (fun n => listeners_addNode (g := f.graph)) fun _ _ _ => Iff.rfl
  exact (admits_congr (filter?_addNode (g := f.graph))).mpr (h.admitted ht)

theorem Hearing.link (h : Hearing sieve heard f) {source target : NodeId}
    (hsource : f.graph.contains source) (htarget : f.graph.contains target) :
    Hearing sieve heard (f.link sieve source target).2 := by
  refine h.of_unheard (h.toSturdy.link hsource htarget) (fun _ => tokens_link) (fun n t ht => ?_)
    (fun _ => listeners_link) fun n l t => ?_
  · exact (admits_congr filter?_link).mpr (h.admitted ht)
  · rw [waits_link h.wellFormed h.screened]
    simp

theorem Hearing.offer (h : Hearing sieve heard f) (hn : f.graph.contains n) (tokens : TokenSet τ) :
    Hearing sieve heard (f.offer n tokens).2 := by
  refine h.of_agenda (h.toSturdy.offer hn tokens) fun m l t => waits_offer.trans ?_
  simp

theorem Hearing.setFilter (h : Hearing sieve heard f) {filter : φ} (hn : f.graph.contains n)
    (hretains : Retains sieve filter) (hpasses : ∀ t ∈ f.graph.tokens n, Passes sieve filter t)
    (hok : f.setFilter n filter = .ok f') : Hearing sieve heard f' := by
  have hs := h.toSturdy.setFilter hn hretains hok
  obtain ⟨-, rfl⟩ := setFilter_eq_ok hok
  refine h.of_unheard hs (fun m => ?_) (fun m t ht filter' hf => ?_)
    (fun m => listeners_modify fun _ => rfl) fun _ _ _ => Iff.rfl
  · simp [Graph.tokens]
  · rw [filter?_modify_filter hn] at hf
    split at hf
    · rename_i hm
      cases hf
      exact hpasses t (hm ▸ ht)
    · exact h.admitted ht filter' hf

/-! ## 2. New tokens -/

theorem passesTo_notify {g : Graph φ τ} {m : NodeId} :
    g.PassesTo m (.notify n l) t ↔ m = n ∧ l ∈ g.listeners n := by
  constructor
  · intro h
    rcases h with ⟨s, -, e, -⟩ | ⟨l', hl', e⟩
    · cases e
    · cases e
      exact ⟨rfl, hl'⟩
  · intro ⟨e, hl⟩
    subst e
    exact .inr ⟨l, hl, rfl⟩

/-- A listener hears of what its component gains. -/
theorem Hearing.waits_deliver (h : Hearing sieve heard f) (hn : f.graph.contains n)
    {m : NodeId} :
    (f.deliver sieve n tokens).2.agenda.Waits (.notify m l) t ↔ f.agenda.Waits (.notify m l) t ∨
      t ∈ f.gain sieve n tokens ∧ f.graph.representative m = f.graph.representative n ∧
        l ∈ f.graph.listeners m := by
  rw [Flow.waits_deliver h.wellFormed h.screened hn]
  refine or_congr_right (and_congr_right fun _ => ?_)
  simp only [passesTo_notify, listeners_deliver]
  constructor
  · intro ⟨k, _, hrep, e, hl⟩
    subst e
    exact ⟨hrep, hl⟩
  · intro ⟨hrep, hl⟩
    exact ⟨m, contains_of_mem_listeners hl, hrep, rfl, hl⟩

theorem Hearing.deliver (h : Hearing sieve heard f) (hn : f.graph.contains n)
    (tokens : TokenSet τ) : Hearing sieve heard (f.deliver sieve n tokens).2 where
  toSturdy := h.toSturdy.deliver hn tokens
  admitted {m t} ht := by
    rw [admits_congr filter?_deliver]
    rcases (mem_tokens_deliver h.wellFormed.grouped hn).mp ht with ht | ⟨hrep, ht⟩
    · exact h.admitted ht
    · rw [h.wellFormed.admits_iff hrep]
      exact ((mem_gain h.wellFormed h.screened).mp ht).2.2
  listens {m l t} hl := by
    rw [listeners_deliver]
    rcases hl with hl | hl
    · exact h.listens (.inl hl)
    · rcases (h.waits_deliver hn).mp hl with hl | ⟨-, -, hl⟩
      · exact h.listens (.inr hl)
      · exact hl
  once {m l t} hheard hwaits := by
    rcases (h.waits_deliver hn).mp hwaits with hwaits | ⟨hgain, hrep, hl⟩
    · exact h.once hheard hwaits
    · -- what is gained is new to the component, so nobody has heard of it
      have hnew := ((mem_gain h.wellFormed h.screened).mp hgain).2.1
      rw [← tokens_congr hrep] at hnew
      exact hnew ((h.complete hl).mpr (.inl hheard))
  complete {m l t} hl := by
    rw [listeners_deliver] at hl
    rw [mem_tokens_deliver h.wellFormed.grouped hn, h.waits_deliver hn, h.complete hl]
    tauto

/-- A listener hears of what its component gets by fusing. -/
theorem waits_notify_fuse {cycle : List NodeId} (hc : Fusable f.graph cycle)
    (htwo : 2 ≤ cycle.length) :
    (f.fuse cycle).agenda.Waits (.notify n l) t ↔ f.agenda.Waits (.notify n l) t ∨
      (∃ r ∈ cycle, t ∈ f.graph.tokens r) ∧ f.graph.representative n ∈ cycle ∧
        t ∉ f.graph.tokens n ∧ l ∈ f.graph.listeners n := by
  rw [waits_fuse hc htwo]
  simp only [passesTo_notify, listeners_fuse, reduceCtorEq, not_false_eq_true, implies_true,
    and_true, ne_eq, false_and, false_or]
  refine or_congr_right (and_congr_right fun _ => ?_)
  constructor
  · intro ⟨m, _, hrep, hnew, e, hl⟩
    subst e
    exact ⟨hrep, hnew, hl⟩
  · intro ⟨hrep, hnew, hl⟩
    exact ⟨n, contains_of_mem_listeners hl, hrep, hnew, rfl, hl⟩

theorem Hearing.fuse (h : Hearing sieve heard f) {cycle : List NodeId}
    (hc : Fusable f.graph cycle) : Hearing sieve heard (f.fuse cycle) := by
  rcases length_lt_or_two_le cycle with hle | htwo
  · rw [fuse_of_length_le hle]
    exact h
  refine ⟨h.toSturdy.fuse hc, fun {n t} ht => ?_, fun {n l t} hl => ?_,
    fun {n l t} hheard hwaits => ?_, fun {n l t} hl => ?_⟩
  · rw [admits_congr filter?_fuse]
    rw [mem_tokens_fuse hc] at ht
    split at ht
    · rename_i hrep
      refine admits_of_none ?_
      rw [← h.wellFormed.filter?_rep]
      exact (isFusable_iff.mp (hc.isFusable _ hrep)).2
    · exact h.admitted ht
  · rw [listeners_fuse]
    rcases hl with hl | hl
    · exact h.listens (.inl hl)
    · rcases (waits_notify_fuse hc htwo).mp hl with hl | ⟨-, -, -, hl⟩
      · exact h.listens (.inr hl)
      · exact hl
  · rcases (waits_notify_fuse hc htwo).mp hwaits with hwaits | ⟨-, -, hnew, hl⟩
    · exact h.once hheard hwaits
    · exact hnew ((h.complete hl).mpr (.inl hheard))
  · rw [listeners_fuse] at hl
    rw [mem_tokens_fuse hc, waits_notify_fuse hc htwo]
    have hcomplete := h.complete (t := t) hl
    split
    · rename_i hrep
      have hold : t ∈ f.graph.tokens n → ∃ r ∈ cycle, t ∈ f.graph.tokens r := fun ht =>
        ⟨_, hrep, h.wellFormed.grouped.tokens_rep.symm ▸ ht⟩
      tauto
    · rename_i hrep
      rw [hcomplete]
      tauto

theorem Hearing.condense (h : Hearing sieve heard f) (roots : List NodeId) :
    Hearing sieve heard (f.condense roots).2 := by
  refine condense_induction h.wellFormed.grouped roots (fun g hu => ?_)
    fun f' c hc hf' => hf'.fuse hc
  refine h.of_unheard (h.toSturdy.of_unmarked hu) (fun n => tokens_of_unmarked hu)
    (fun n t ht => ?_) (fun n => listeners_of_unmarked hu) fun _ _ _ => Iff.rfl
  exact (admits_congr (filter?_of_unmarked hu)).mpr (h.admitted ht)

/-! ## 3. New listeners, and what is heard -/

/-- A listener that is new has heard nothing, and gets all that the node has. -/
theorem Hearing.subscribe (h : Hearing sieve heard f) (hn : f.graph.contains n)
    (hnew : ∀ m, l ∉ f.graph.listeners m) : Hearing sieve heard (f.subscribe sieve n l) := by
  have hwaits : ∀ {m l' t}, (f.subscribe sieve n l).agenda.Waits (.notify m l') t ↔
      f.agenda.Waits (.notify m l') t ∨ (m = n ∧ l' = l) ∧ t ∈ f.graph.tokens n := by
    intro m l' t
    rw [waits_subscribe h.wellFormed h.screened, and_iff_left_of_imp h.admitted]
    simp
  refine ⟨h.toSturdy.subscribe n l, fun {m t} ht => ?_, fun {m l' t} hl => ?_,
    fun {m l' t} hheard hw => ?_, fun {m l' t} hl => ?_⟩
  · rw [tokens_subscribe] at ht
    exact (admits_congr filter?_subscribe).mpr (h.admitted ht)
  · rw [mem_listeners_subscribe hn]
    rw [hwaits] at hl
    rcases hl with hl | hl | ⟨e, -⟩
    · exact .inl (h.listens (.inl hl))
    · exact .inl (h.listens (.inr hl))
    · exact .inr e
  · rcases hwaits.mp hw with hw | ⟨⟨e, e'⟩, -⟩
    · exact h.once hheard hw
    · exact hnew m (e' ▸ h.listens (.inl hheard))
  · rw [tokens_subscribe, hwaits]
    rcases (mem_listeners_subscribe hn).mp hl with hl | ⟨e, e'⟩
    · have hne : ¬ (m = n ∧ l' = l) := fun e => hnew m (e.2 ▸ hl)
      rw [h.complete hl]
      simp [hne]
    · subst e e'
      have hunheard : ¬ (heard m l' t ∨ f.agenda.Waits (.notify m l') t) := fun hl =>
        hnew m (h.listens hl)
      simp only [not_or] at hunheard
      simp [hunheard]

theorem Hearing.collect (h : Hearing sieve heard f) {item : WorkItem}
    (hitem : ∀ n l, item ≠ .notify n l) :
    Hearing sieve heard { f with agenda := (f.agenda.collect item).2 } := by
  refine h.of_agenda (h.toSturdy.collect _) fun m l t => ?_
  rw [Agenda.waits_collect]
  exact and_iff_right (hitem m l).symm

/-- **What is handed to a listener is heard from then on.** -/
theorem Hearing.collect_notify (h : Hearing sieve heard f)
    (hd : f.agenda.delta? (.notify n l) = some tokens) :
    Hearing sieve (fun m l' t => heard m l' t ∨ (m = n ∧ l' = l) ∧ t ∈ tokens)
      { f with agenda := (f.agenda.collect (.notify n l)).2 } := by
  have hdelta : ∀ {t}, f.agenda.Waits (.notify n l) t ↔ t ∈ tokens := by
    intro t
    simp [Agenda.Waits, hd]
  have hwaits : ∀ {m l' t}, (f.agenda.collect (.notify n l)).2.Waits (.notify m l') t ↔
      ¬ (m = n ∧ l' = l) ∧ f.agenda.Waits (.notify m l') t := by
    intro m l' t
    rw [Agenda.waits_collect]
    simp
  refine ⟨h.toSturdy.collect _, h.admitted, fun {m l' t} hl => ?_, fun {m l' t} hheard hw => ?_,
    fun {m l' t} hl => ?_⟩
  · rw [hwaits] at hl
    rcases hl with (hl | ⟨⟨e, e'⟩, ht⟩) | ⟨-, hl⟩
    · exact h.listens (.inl hl)
    · subst e e'
      exact h.listens (.inr (hdelta.mpr ht))
    · exact h.listens (.inr hl)
  · obtain ⟨hne, hw⟩ := hwaits.mp hw
    rcases hheard with hheard | ⟨e, -⟩
    · exact h.once hheard hw
    · exact hne e
  · rw [hwaits]
    have hcomplete := h.complete (t := t) hl
    by_cases e : m = n ∧ l' = l
    · obtain ⟨rfl, rfl⟩ := e
      rw [hdelta] at hcomplete
      simp [hcomplete]
    · simp [e, hcomplete]

/-! ## 4. All operations -/

/-- **An operation that listeners can rely on**: a link leads to a node, a filter that is accepted
decides token by token and lets pass what the node has, a listener is new; nothing is cleared, and
what is handed to listeners is not dealt with here. -/
def Attentive (sieve : φ → TokenSet τ → TokenSet τ) (f : Flow φ τ) : Operation φ τ → Prop
  | .link _ target => f.graph.contains target
  | .setFilter n filter => (∃ f', f.setFilter n filter = .ok f') →
      Retains sieve filter ∧ ∀ t ∈ f.graph.tokens n, Passes sieve filter t
  | .subscribe _ l => ∀ n, l ∉ f.graph.listeners n
  | .execute item => ∀ n l, item ≠ .notify n l
  | .giveBack _ _ _ | .clear => False
  | _ => True

theorem Hearing.does (h : Hearing sieve heard f) (hdone : Does sieve f op f')
    (hop : Attentive sieve f op) : Hearing sieve heard f' := by
  cases hdone with
  | addNode label => exact h.addNode label
  | link target hsource => exact h.link hsource hop
  | deliver tokens hn => exact h.deliver hn tokens
  | offer tokens hn => exact h.offer hn tokens
  | setFilter hn hok =>
    obtain ⟨hretains, hpasses⟩ := hop ⟨_, hok⟩
    exact h.setFilter hn hretains hpasses hok
  | refuse => exact h
  | subscribe l hn => exact h.subscribe hn hop
  | condense roots => exact h.condense roots
  | beginRound hbag =>
    exact h.of_agenda (h.toSturdy.beginRound hbag) fun _ _ _ => Agenda.waits_startRound hbag
  | execute item =>
    refine execute_cases item (fun _ => h.collect hop) fun n tokens hitem hd => ?_
    subst hitem
    exact (h.collect hop).deliver (h.toSturdy.contains hd) tokens
  | schedule id =>
    exact h.of_agenda (h.toSturdy.does ⟨rfl, trivial⟩ (.schedule id)) fun _ _ _ => Iff.rfl
  | putBack bag =>
    exact h.of_agenda (h.toSturdy.does ⟨rfl, trivial⟩ (.putBack bag)) fun _ _ _ => Iff.rfl
  | giveBack => exact hop.elim
  | clear => exact hop.elim

/-- **What filters do later does not matter**, as long as they let pass what the nodes have. -/
theorem Hearing.resieve {sieve' : φ → TokenSet τ → TokenSet τ} (h : Hearing sieve heard f)
    (hscreened : f.graph.Screened sieve')
    (hadmitted : ∀ {n t}, t ∈ f.graph.tokens n → f.graph.Admits sieve' n t) :
    Hearing sieve' heard f where
  wellFormed := h.wellFormed
  screened := hscreened
  kept := h.kept
  target := h.target
  admitted := hadmitted
  listens := h.listens
  once := h.once
  complete := h.complete

theorem listeners_condense (hg : f.graph.Grouped) (roots : List NodeId) :
    (f.condense roots).2.graph.listeners n = f.graph.listeners n := by
  refine condense_induction (P := fun f' => f'.graph.listeners n = f.graph.listeners n) hg roots
    (fun g hu => listeners_of_unmarked hu) fun f' c _ hf' => ?_
  rw [listeners_fuse]
  exact hf'

theorem listeners_execute (item : WorkItem) :
    (f.execute sieve item).2.graph.listeners n = f.graph.listeners n :=
  execute_cases (P := fun f' => f'.graph.listeners n = f.graph.listeners n) item (fun _ => rfl)
    fun _ _ _ _ => listeners_deliver

/-- **Listeners stay where they are attached**, unless all is cleared. -/
theorem Does.mem_listeners (h : Does sieve f op f') (hg : f.graph.Grouped) (hop : op ≠ .clear) :
    l ∈ f'.graph.listeners n ↔ l ∈ f.graph.listeners n ∨ op = .subscribe n l := by
  have hsame : ∀ {f' : Flow φ τ}, f'.graph.listeners n = f.graph.listeners n →
      op ≠ .subscribe n l →
      (l ∈ f'.graph.listeners n ↔ l ∈ f.graph.listeners n ∨ op = .subscribe n l) := by
    intro f' hf hne
    rw [hf, or_iff_left hne]
  cases h with
  | addNode label => exact hsame (listeners_addNode (g := f.graph)) nofun
  | link => exact hsame listeners_link nofun
  | deliver => exact hsame listeners_deliver nofun
  | setFilter _ hok =>
    obtain ⟨-, rfl⟩ := setFilter_eq_ok hok
    exact hsame (listeners_modify fun _ => rfl) nofun
  | subscribe l' hn =>
    rw [mem_listeners_subscribe hn, Operation.subscribe.injEq, eq_comm, eq_comm (a := l)]
  | condense roots => exact hsame (listeners_condense hg roots) nofun
  | execute item => exact hsame (listeners_execute item) nofun
  | clear => exact absurd rfl hop
  | offer | refuse | schedule | giveBack | beginRound | putBack => exact hsame rfl nofun

/-- Only a new filter changes what a node filters. -/
theorem Does.filter?_or (h : Does sieve f op f') (hg : f.graph.WellFormed) {filter : φ}
    (hf : f'.graph.filter? n = some filter) :
    f.graph.filter? n = some filter ∨ op = .setFilter n filter := by
  cases h with
  | addNode label => exact .inl ((filter?_addNode (g := f.graph)).symm.trans hf)
  | link => exact .inl (filter?_link.symm.trans hf)
  | deliver => exact .inl (filter?_deliver.symm.trans hf)
  | setFilter hn hok =>
    obtain ⟨-, rfl⟩ := setFilter_eq_ok hok
    rw [filter?_modify_filter hn] at hf
    split at hf
    · rename_i heq
      cases hf
      exact .inr (heq ▸ rfl)
    · exact .inl hf
  | subscribe => exact .inl (filter?_subscribe.symm.trans hf)
  | condense roots => exact .inl ((filter?_condense hg roots n).symm.trans hf)
  | execute item => exact .inl ((readings_execute item n).2.symm.trans hf)
  | clear => cases hf
  | offer | refuse | schedule | giveBack | beginRound | putBack => exact .inl hf

end ValueFlow.Flow
