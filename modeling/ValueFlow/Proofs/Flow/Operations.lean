import ValueFlow.Proofs.Flow.Passing

/-!
# What the operations of a flow do

The readings of a flow after a delivery, a link, a subscription and a filter, mostly for filters
that decide token by token. Such a filter *retains* tokens: it keeps exactly those with some
property (`Retains`), and the property can be read off what it does to single tokens (`Admits`).
-/

namespace ValueFlow

variable {φ τ : Type} [Ordered τ] {sieve : φ → TokenSet τ → TokenSet τ}

/-! ## 1. Filters that retain tokens -/

/-- **The filter decides token by token.** -/
def Retains (sieve : φ → TokenSet τ → TokenSet τ) (filter : φ) : Prop :=
  ∃ keeps : τ → Bool, ∀ tokens, sieve filter tokens = tokens.filter keeps

/-- The filter lets the token through. -/
def Passes (sieve : φ → TokenSet τ → TokenSet τ) (filter : φ) (t : τ) : Prop :=
  t ∈ sieve filter (.singleton t)

theorem Retains.mem_iff {filter : φ} (h : Retains sieve filter) {tokens : TokenSet τ} {t : τ} :
    t ∈ sieve filter tokens ↔ t ∈ tokens ∧ Passes sieve filter t := by
  obtain ⟨keeps, hkeeps⟩ := h
  unfold Passes
  rw [hkeeps, hkeeps, SortedSet.mem_filter, SortedSet.mem_filter, SortedSet.mem_singleton]
  simp

namespace Graph

variable {g g' : Graph φ τ} {n m : NodeId} {tokens : TokenSet τ} {t : τ}

/-- The filter of the node, if there is one, lets the token through. -/
def Admits (sieve : φ → TokenSet τ → TokenSet τ) (g : Graph φ τ) (n : NodeId) (t : τ) : Prop :=
  ∀ filter, g.filter? n = some filter → Passes sieve filter t

/-- All filters of the graph retain tokens. -/
def Screened (sieve : φ → TokenSet τ → TokenSet τ) (g : Graph φ τ) : Prop :=
  ∀ n filter, g.filter? n = some filter → Retains sieve filter

theorem admits_congr (h : g'.filter? m = g.filter? n) :
    g'.Admits sieve m t ↔ g.Admits sieve n t := by
  unfold Admits
  rw [h]

theorem admits_of_none (h : g.filter? n = none) : g.Admits sieve n t := by
  intro filter hf
  rw [h] at hf
  cases hf

/-- Nodes of one component admit the same tokens. -/
theorem WellFormed.admits_iff (hg : g.WellFormed) (h : g.representative m = g.representative n) :
    g.Admits sieve m t ↔ g.Admits sieve n t := by
  refine admits_congr ?_
  rw [← hg.filter?_rep (n := m), h, hg.filter?_rep]

theorem mem_screen (hs : ∀ filter, g.filter? n = some filter → Retains sieve filter) :
    t ∈ g.screen sieve n tokens ↔ t ∈ tokens ∧ g.Admits sieve n t := by
  unfold screen Admits
  cases hf : g.filter? n with
  | none => simp
  | some filter => simpa using (hs filter hf).mem_iff

theorem mem_outbound (hs : ∀ filter, g.filter? n = some filter → Retains sieve filter) :
    t ∈ g.outbound sieve n tokens ↔ t ∈ tokens ∧ g.Admits sieve n t := by
  unfold outbound
  by_cases he : tokens.isEmpty
  · rw [if_pos he]
    have := SortedSet.isEmpty_eq_true.mp he t
    exact ⟨fun h => absurd h this, fun h => h.1⟩
  · rw [if_neg he]
    exact mem_screen hs

/-- What leaves a node depends on its filter alone. -/
theorem outbound_of_filter? (h : g'.filter? n = g.filter? n) :
    g'.outbound sieve n tokens = g.outbound sieve n tokens := by
  unfold outbound screen
  rw [h]

end Graph

namespace Flow

open ValueFlow.Graph

variable {f : Flow φ τ} {n m : NodeId} {tokens : TokenSet τ} {t : τ} {item : WorkItem}

/-! ## 2. Delivering -/

/-- What a delivery adds: what is new to the node and passes its filter. -/
theorem mem_gain (hg : f.graph.WellFormed) (hs : f.graph.Screened sieve) :
    t ∈ f.gain sieve n tokens ↔
      t ∈ tokens ∧ t ∉ f.graph.tokens n ∧ f.graph.Admits sieve n t := by
  have hrep : f.graph.Admits sieve (f.graph.representative n) t ↔ f.graph.Admits sieve n t :=
    hg.admits_iff hg.rep_rep
  unfold gain
  dsimp only
  rw [mem_screen (hs _), SortedSet.mem_diff, hrep, and_assoc]
  rfl

/-- The graph with more tokens stored at `r`. -/
def grown (g : Graph φ τ) (r : NodeId) (more : TokenSet τ) : Graph φ τ :=
  g.modify r fun v => { v with tokens := v.tokens ∪ more }

theorem graph_deliver : (f.deliver sieve n tokens).2.graph =
    if (f.gain sieve n tokens).isEmpty then f.graph
      else grown f.graph (f.graph.representative n) (f.gain sieve n tokens) := by
  unfold deliver
  dsimp only
  split
  · rfl
  · split <;> rfl

theorem agenda_deliver : (f.deliver sieve n tokens).2.agenda =
    let r := f.graph.representative n
    let out := (grown f.graph r (f.gain sieve n tokens)).outbound sieve r (f.gain sieve n tokens)
    if (f.gain sieve n tokens).isEmpty || out.isEmpty then f.agenda
      else ((grown f.graph r (f.gain sieve n tokens)).component r).foldl (fun a m =>
        (grown f.graph r (f.gain sieve n tokens)).forward a m out) f.agenda := by
  unfold deliver grown
  dsimp only
  cases (f.gain sieve n tokens).isEmpty with
  | true => rfl
  | false =>
    rw [Bool.false_or, if_neg Bool.false_ne_true]
    split <;> rfl

/-- A delivery changes nothing of a graph but stored tokens. -/
theorem readAt_deliver {β : Type} {field : Node φ τ → β} {d : β}
    (hfield : ∀ (v : Node φ τ) (s : TokenSet τ), field { v with tokens := s } = field v) :
    (f.deliver sieve n tokens).2.graph.readAt m field d = f.graph.readAt m field d := by
  rw [graph_deliver]
  split
  · rfl
  · exact readAt_modify fun v => hfield v _

section Deliver

@[simp] theorem representative_deliver :
    (f.deliver sieve n tokens).2.graph.representative m = f.graph.representative m := by
  rw [representative_eq, representative_eq, readAt_deliver fun _ _ => rfl]

@[simp] theorem successors_deliver :
    (f.deliver sieve n tokens).2.graph.successors m = f.graph.successors m := by
  rw [successors_eq, successors_eq]
  exact readAt_deliver fun _ _ => rfl

@[simp] theorem listeners_deliver :
    (f.deliver sieve n tokens).2.graph.listeners m = f.graph.listeners m := by
  rw [listeners_eq, listeners_eq, readAt_deliver fun _ _ => rfl]

@[simp] theorem filter?_deliver :
    (f.deliver sieve n tokens).2.graph.filter? m = f.graph.filter? m := by
  rw [filter?_eq, filter?_eq, readAt_deliver fun _ _ => rfl]

@[simp] theorem contains_deliver :
    (f.deliver sieve n tokens).2.graph.contains m = f.graph.contains m := by
  rw [graph_deliver]
  split
  · rfl
  · exact contains_modify

theorem wellFormed_deliver (hg : f.graph.WellFormed) :
    (f.deliver sieve n tokens).2.graph.WellFormed := by
  rw [graph_deliver]
  split
  · exact hg
  · exact hg.setTokens (h := fun s => s ∪ f.gain sieve n tokens) hg.rep_rep

theorem stored_grown {g : Graph φ τ} {r : NodeId} (hr : g.contains r) {more : TokenSet τ} :
    (grown g r more).stored m = if r = m then g.stored m ∪ more else g.stored m := by
  unfold grown
  by_cases hm : r = m
  · subst hm
    obtain ⟨v, hv⟩ := exists_node? hr
    rw [if_pos rfl, stored_eq, readAt_modify_self hr, stored_eq]
    unfold readAt
    rw [hv]
    rfl
  · rw [if_neg hm, stored_eq, readAt_modify_of_ne hm, ← stored_eq]

/-- **A delivery adds what is gained**, to all nodes of the component. -/
theorem mem_tokens_deliver (hg : f.graph.Grouped) (hn : f.graph.contains n) :
    t ∈ (f.deliver sieve n tokens).2.graph.tokens m ↔ t ∈ f.graph.tokens m ∨
      (f.graph.representative m = f.graph.representative n ∧ t ∈ f.gain sieve n tokens) := by
  unfold Graph.tokens
  rw [representative_deliver, graph_deliver]
  by_cases he : (f.gain sieve n tokens).isEmpty
  · rw [if_pos he]
    have := SortedSet.isEmpty_eq_true.mp he t
    exact ⟨.inl, fun h => h.elim id fun h => absurd h.2 this⟩
  · rw [if_neg he, stored_grown (hg.contains_rep hn)]
    by_cases hm : f.graph.representative n = f.graph.representative m
    · rw [if_pos hm, SortedSet.mem_union]
      exact or_congr_right ⟨fun h => ⟨hm.symm, h⟩, fun h => h.2⟩
    · rw [if_neg hm]
      exact ⟨.inl, fun h => h.elim id fun h => absurd h.1.symm hm⟩

/-- **A delivery takes no token from a node.** -/
theorem subset_tokens_deliver (ht : t ∈ f.graph.tokens m) :
    t ∈ (f.deliver sieve n tokens).2.graph.tokens m := by
  unfold Graph.tokens at ht ⊢
  rw [representative_deliver, graph_deliver]
  split
  · exact ht
  · by_cases hr : f.graph.representative n = f.graph.representative m
    · have hc := contains_of_mem_stored ht
      rw [stored_grown (hr ▸ hc), if_pos hr]
      exact SortedSet.mem_union.mpr (.inl ht)
    · unfold grown
      rw [stored_eq, readAt_modify_of_ne hr, ← stored_eq]
      exact ht

/-- **A delivery passes on what leaves the representative**, from all nodes of the component;
filters may let through what they like. -/
theorem waits_deliver_outbound (hg : f.graph.Grouped) (hn : f.graph.contains n) :
    (f.deliver sieve n tokens).2.agenda.Waits item t ↔ f.agenda.Waits item t ∨
      (t ∈ f.graph.outbound sieve (f.graph.representative n) (f.gain sieve n tokens) ∧
        ∃ m, f.graph.contains m ∧ f.graph.representative m = f.graph.representative n ∧
          (f.deliver sieve n tokens).2.graph.PassesTo m item t) := by
  rw [graph_deliver, agenda_deliver]
  dsimp only
  by_cases he : (f.gain sieve n tokens).isEmpty
  · have hout : f.graph.outbound sieve (f.graph.representative n) (f.gain sieve n tokens) =
        f.gain sieve n tokens := if_pos he
    rw [he, Bool.true_or, if_pos rfl, hout]
    have := SortedSet.isEmpty_eq_true.mp he t
    exact ⟨.inl, fun h => h.elim id fun h => absurd h.1 this⟩
  · rw [if_neg he, Bool.eq_false_iff.mpr he, Bool.false_or]
    generalize hgr : grown f.graph (f.graph.representative n) (f.gain sieve n tokens) = g'
    have hfilter : g'.filter? (f.graph.representative n) =
        f.graph.filter? (f.graph.representative n) := by
      rw [← hgr]
      exact filter?_modify fun _ => rfl
    have hcomp : ∀ k, g'.component k = f.graph.component k := fun k => by
      rw [← hgr]
      exact component_modify fun _ => rfl
    have hmem : ∀ k, k ∈ f.graph.component (f.graph.representative n) ↔
        f.graph.contains k ∧ f.graph.representative k = f.graph.representative n := fun k =>
      hg.mem_component (hg.contains_rep hn) hg.rep_rep
    rw [outbound_of_filter? hfilter]
    split
    · rename_i hempty
      have := SortedSet.isEmpty_eq_true.mp hempty t
      exact ⟨.inl, fun h => h.elim id fun h => absurd h.1 this⟩
    · rw [waits_foldl_forward, hcomp]
      simp only [hmem, and_assoc]

/-- **A delivery passes on what is gained**, from all nodes of the component. -/
theorem waits_deliver (hg : f.graph.WellFormed) (hs : f.graph.Screened sieve)
    (hn : f.graph.contains n) :
    (f.deliver sieve n tokens).2.agenda.Waits item t ↔ f.agenda.Waits item t ∨
      (t ∈ f.gain sieve n tokens ∧ ∃ m, f.graph.contains m ∧
        f.graph.representative m = f.graph.representative n ∧
        (f.deliver sieve n tokens).2.graph.PassesTo m item t) := by
  -- what was let in by the filter is let out by it
  have hout : t ∈ f.graph.outbound sieve (f.graph.representative n) (f.gain sieve n tokens) ↔
      t ∈ f.gain sieve n tokens := by
    rw [mem_outbound (hs _), hg.admits_iff hg.rep_rep]
    exact and_iff_left_of_imp fun h => ((mem_gain hg hs).mp h).2.2
  rw [waits_deliver_outbound hg.grouped hn, hout]

theorem growing_deliver {P : Agenda τ → Prop} (hP : Agenda.Growing P) (h : P f.agenda) :
    P (f.deliver sieve n tokens).2.agenda := by
  rw [agenda_deliver]
  dsimp only
  split
  · exact h
  · exact growing_foldl_forward hP _ h

end Deliver

/-! ## 3. Linking -/

section Link

variable {source target k : NodeId}

/-- The graph with one more link. -/
def relinked (g : Graph φ τ) (source target : NodeId) : Graph φ τ :=
  g.modify source fun v => { v with links := v.links.insert target }

theorem graph_link : (f.link sieve source target).2.graph =
    if f.graph.linked source target then f.graph else relinked f.graph source target := by
  unfold link
  dsimp only
  split
  · rfl
  · split <;> rfl

theorem agenda_link : (f.link sieve source target).2.agenda =
    let g := relinked f.graph source target
    let current := g.outbound sieve (g.representative source) (g.stored (g.representative source))
    if f.graph.linked source target || current.isEmpty then f.agenda
      else (g.offer f.agenda target current).2 := by
  unfold link relinked
  dsimp only
  cases f.graph.linked source target with
  | true => rfl
  | false =>
    rw [Bool.false_or, if_neg Bool.false_ne_true]
    split <;> rfl

/-- Linking changes nothing of a graph but links. -/
theorem readAt_link {β : Type} {field : Node φ τ → β} {d : β}
    (hfield : ∀ (v : Node φ τ) (l : Links), field { v with links := l } = field v) :
    (f.link sieve source target).2.graph.readAt k field d = f.graph.readAt k field d := by
  rw [graph_link]
  split
  · rfl
  · exact readAt_modify fun v => hfield v _

@[simp] theorem representative_link :
    (f.link sieve source target).2.graph.representative k = f.graph.representative k := by
  rw [representative_eq, representative_eq, readAt_link fun _ _ => rfl]

@[simp] theorem tokens_link :
    (f.link sieve source target).2.graph.tokens k = f.graph.tokens k := by
  unfold Graph.tokens
  rw [representative_link, stored_eq, stored_eq, readAt_link fun _ _ => rfl]

@[simp] theorem listeners_link :
    (f.link sieve source target).2.graph.listeners k = f.graph.listeners k := by
  rw [listeners_eq, listeners_eq, readAt_link fun _ _ => rfl]

@[simp] theorem filter?_link :
    (f.link sieve source target).2.graph.filter? k = f.graph.filter? k := by
  rw [filter?_eq, filter?_eq, readAt_link fun _ _ => rfl]

@[simp] theorem contains_link :
    (f.link sieve source target).2.graph.contains k = f.graph.contains k := by
  rw [graph_link]
  split
  · rfl
  · exact contains_modify

theorem wellFormed_link (hg : f.graph.WellFormed) (hsource : f.graph.contains source)
    (htarget : f.graph.contains target) : (f.link sieve source target).2.graph.WellFormed := by
  rw [graph_link]
  split
  · exact hg
  · exact hg.addLink hsource htarget

theorem mem_successors_link (hg : f.graph.WellFormed) (hsource : f.graph.contains source) :
    m ∈ (f.link sieve source target).2.graph.successors k ↔
      m ∈ f.graph.successors k ∨ (k = source ∧ m = target) := by
  rw [graph_link]
  by_cases hl : f.graph.linked source target
  · rw [if_pos hl]
    refine ⟨.inl, fun h => h.elim id ?_⟩
    rintro ⟨rfl, rfl⟩
    exact hg.linked_iff.mp hl
  · rw [if_neg hl]
    exact mem_successors_addLink hg hsource

/-- **A new link offers what leaves its source to its target**; filters may let through what they
like. -/
theorem waits_link_outbound : (f.link sieve source target).2.agenda.Waits item t ↔
    f.agenda.Waits item t ∨
      (¬ f.graph.linked source target ∧ item = .send (f.graph.representative target) ∧
        t ∈ f.graph.outbound sieve (f.graph.representative source) (f.graph.tokens source) ∧
        t ∉ f.graph.tokens target) := by
  rw [agenda_link]
  dsimp only
  by_cases hl : f.graph.linked source target
  · rw [hl, Bool.true_or, if_pos rfl]
    exact ⟨.inl, fun h => h.elim id fun h => absurd rfl h.1⟩
  · rw [Bool.eq_false_iff.mpr hl, Bool.false_or]
    generalize hgr : relinked f.graph source target = g'
    have hrep : ∀ k, g'.representative k = f.graph.representative k := fun k => by
      rw [← hgr]
      exact representative_modify fun _ => rfl
    have hstored : ∀ k, g'.stored k = f.graph.stored k := fun k => by
      rw [← hgr]
      exact stored_modify fun _ => rfl
    have hfilter : ∀ k, g'.filter? k = f.graph.filter? k := fun k => by
      rw [← hgr]
      exact filter?_modify fun _ => rfl
    have htokens : ∀ k, g'.tokens k = f.graph.tokens k := fun k => by
      unfold Graph.tokens
      rw [hrep, hstored]
    have hcurrent : g'.outbound sieve (g'.representative source)
          (g'.stored (g'.representative source)) =
        f.graph.outbound sieve (f.graph.representative source) (f.graph.tokens source) := by
      rw [hrep, hstored, outbound_of_filter? (hfilter _)]
      rfl
    rw [hcurrent]
    split
    · rename_i hempty
      have := SortedSet.isEmpty_eq_true.mp hempty t
      exact ⟨.inl, fun h => h.elim id fun h => absurd h.2.2.1 this⟩
    · rw [waits_offer, htokens, hrep]
      exact or_congr_right ⟨fun h => ⟨Bool.false_ne_true, h⟩, fun h => h.2⟩

/-- **A new link offers the tokens of its source to its target.** -/
theorem waits_link (hg : f.graph.WellFormed) (hs : f.graph.Screened sieve) :
    (f.link sieve source target).2.agenda.Waits item t ↔ f.agenda.Waits item t ∨
      (¬ f.graph.linked source target ∧ item = .send (f.graph.representative target) ∧
        (t ∈ f.graph.tokens source ∧ f.graph.Admits sieve source t) ∧
        t ∉ f.graph.tokens target) := by
  rw [waits_link_outbound, mem_outbound (hs _), hg.admits_iff hg.rep_rep]

theorem growing_link {P : Agenda τ → Prop} (hP : Agenda.Growing P) (h : P f.agenda) :
    P (f.link sieve source target).2.agenda := by
  rw [agenda_link]
  dsimp only
  split
  · exact h
  · exact growing_offer hP h

end Link

/-! ## 4. Listeners and filters -/

section Subscribe

variable {l : ListenerId}

@[simp] theorem contains_subscribe :
    (f.subscribe sieve n l).graph.contains m = f.graph.contains m := contains_modify

@[simp] theorem representative_subscribe :
    (f.subscribe sieve n l).graph.representative m = f.graph.representative m :=
  representative_modify fun _ => rfl

@[simp] theorem filter?_subscribe :
    (f.subscribe sieve n l).graph.filter? m = f.graph.filter? m := filter?_modify fun _ => rfl

@[simp] theorem tokens_subscribe :
    (f.subscribe sieve n l).graph.tokens m = f.graph.tokens m := by
  unfold Graph.tokens
  rw [representative_subscribe]
  exact stored_modify fun _ => rfl

theorem mem_listeners_subscribe {l' : ListenerId} (hn : f.graph.contains n) :
    l' ∈ (f.subscribe sieve n l).graph.listeners m ↔
      l' ∈ f.graph.listeners m ∨ m = n ∧ l' = l := by
  unfold subscribe
  dsimp only
  by_cases hm : m = n
  · subst hm
    obtain ⟨v, hv⟩ := exists_node? hn
    rw [listeners_eq, listeners_eq, readAt_modify_self hn]
    unfold readAt
    rw [hv]
    simp
  · rw [listeners_eq, readAt_modify_of_ne (Ne.symm hm), ← listeners_eq]
    simp [hm]

/-- What waits for a new listener is what the node has and lets through. -/
theorem waits_subscribe (hg : f.graph.WellFormed) (hs : f.graph.Screened sieve) :
    (f.subscribe sieve n l).agenda.Waits item t ↔ f.agenda.Waits item t ∨
      item = .notify n l ∧ t ∈ f.graph.tokens n ∧ f.graph.Admits sieve n t := by
  have hfilter : ∀ k, (f.subscribe sieve n l).graph.filter? k = f.graph.filter? k := fun _ =>
    filter?_subscribe
  have hadmits : (f.subscribe sieve n l).graph.Admits sieve (f.graph.representative n) t ↔
      f.graph.Admits sieve n t :=
    (admits_congr (hfilter _)).trans (hg.admits_iff hg.rep_rep)
  have htokens : t ∈ (f.subscribe sieve n l).graph.tokens n ↔ t ∈ f.graph.tokens n := by
    rw [tokens_subscribe]
  have hrep : (f.subscribe sieve n l).graph.representative n = f.graph.representative n :=
    representative_subscribe
  rw [← hadmits, ← htokens, ← hrep, ← mem_outbound fun filter hk => hs _ filter (hfilter _ ▸ hk)]
  exact Agenda.waits_post

end Subscribe

/-- No node gets tokens from a subscription. -/
theorem waits_send_subscribe {l : ListenerId} {r : NodeId} :
    (f.subscribe sieve n l).agenda.Waits (.send r) t ↔ f.agenda.Waits (.send r) t := by
  unfold subscribe
  dsimp only
  rw [Agenda.waits_post]
  exact ⟨fun h => h.elim id fun h => (nomatch h.1), .inl⟩

theorem setFilter_eq_ok {filter : φ} {f' : Flow φ τ} (h : f.setFilter n filter = .ok f') :
    ¬ f.graph.fused n ∧
      f' = { f with graph := f.graph.modify n fun v => { v with filter := some filter } } := by
  unfold setFilter Graph.setFilter at h
  by_cases hf : f.graph.fused n
  · rw [if_pos hf] at h
    cases h
  · rw [if_neg hf] at h
    cases h
    exact ⟨hf, rfl⟩

theorem filter?_modify_filter {g : Graph φ τ} {filter : φ} (hn : g.contains n) :
    (g.modify n fun v => { v with filter := some filter }).filter? m =
      if m = n then some filter else g.filter? m := by
  by_cases hm : m = n
  · subst hm
    obtain ⟨v, hv⟩ := exists_node? hn
    rw [if_pos rfl, filter?_eq, readAt_modify_self hn]
    unfold readAt
    rw [hv]
    rfl
  · rw [if_neg hm, filter?_eq, readAt_modify_of_ne (Ne.symm hm), ← filter?_eq]

end Flow

end ValueFlow
