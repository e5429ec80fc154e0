import ValueFlow.Proofs.Flow.Arrangement
import ValueFlow.Proofs.Flow.Termination

/-!
# Handles of nodes that exist

Graphs are read and written by position, and nothing checks a handle that was stored long before it
is used. So every handle that is stored must be one of a node: in links, representatives and
members, which a well-formed graph grants, and in the items that are queued or have tokens waiting
(`Agenda.Within`). Operations keep it so (`Flow.Housed.does`), whatever filters let through, and
then none of them needs a node that does not exist (`Flow.Housed.inBounds`).
-/

namespace ValueFlow

variable {φ τ : Type} [Ordered τ]

/-! ## 1. Items -/

/-- The node that an item is about exists. -/
def WorkItem.Inside (g : Graph φ τ) : WorkItem → Prop
  | .send n => g.contains n
  | .notify n _ => g.contains n
  | .task _ => True

theorem WorkItem.Inside.mono {g g' : Graph φ τ} (h : ∀ {n}, g.contains n → g'.contains n)
    {item : WorkItem} (hitem : item.Inside g) : item.Inside g' := by
  cases item with
  | send | notify => exact h hitem
  | task => trivial

namespace Bag

variable {α : Type} {b rest : Bag α} {kind kind' : α → Prop} {a : α}

/-- **All that is in a bag is of one kind**, also the entries of its queue that are going to be
skipped. -/
structure Only (kind : α → Prop) (b : Bag α) : Prop where
  present : ∀ {x}, x ∈ b.present → kind x
  entries : ∀ {x}, x ∈ b.entries → kind x

theorem only_empty (order : BagOrder) : (empty order : Bag α).Only kind := ⟨nofun, nofun⟩

namespace Only

theorem mono (h : b.Only kind) (hkind : ∀ {x}, kind x → kind' x) : b.Only kind' :=
  ⟨fun hx => hkind (h.present hx), fun hx => hkind (h.entries hx)⟩

variable [DecidableEq α]

theorem add (h : b.Only kind) (ha : kind a) : (b.add a).2.Only kind := by
  unfold Bag.add
  split
  · exact h
  · refine ⟨fun {x} hx => ?_, fun {x} hx => ?_⟩
    · rcases List.mem_cons.mp hx with rfl | hx
      · exact ha
      · exact h.present hx
    · have hx : x ∈ b.entries ∨ x = a := by simpa [or_assoc] using hx
      exact hx.elim h.entries fun hx => hx ▸ ha

theorem remove (h : b.Only kind) (a : α) : (b.remove a).2.Only kind :=
  ⟨fun hx => h.present (List.mem_of_mem_erase hx), h.entries⟩

theorem foldl_add {items : List α} (h : b.Only kind) (hitems : ∀ x ∈ items, kind x) :
    (items.foldl (fun b a => (b.add a).2) b).Only kind :=
  List.foldlRecOn items _ h fun _ hb a ha => hb.add (hitems a ha)

theorem take (h : b.Only kind) (ht : b.take = (some a, rest)) : rest.Only kind := by
  refine ⟨fun hx => h.present (mem_of_mem_take ht hx), fun {x} hx => h.entries ?_⟩
  unfold Bag.take at ht
  split at ht
  · split at ht
    · cases ht
    · rename_i hdrop
      cases ht
      have hmem : x ∈ b.entriesRev :=
        (List.dropWhile_suffix _).subset (hdrop ▸ List.mem_cons_of_mem _ (by simpa using hx))
      rw [entriesRev_eq] at hmem
      exact List.mem_reverse.mp hmem
  · split at ht
    · cases ht
    · rename_i hdrop
      cases ht
      exact (List.dropWhile_suffix _).subset (hdrop ▸ List.mem_cons_of_mem _ (by simpa using hx))

end Only

end Bag

namespace Agenda

/-- **All items of an agenda are of one kind**, those that are queued and those that have tokens
waiting. -/
structure Within (kind : WorkItem → Prop) (a : Agenda τ) : Prop where
  queued : a.next.Only kind
  waiting : ∀ {item delta}, a.delta? item = some delta → kind item

variable {kind kind' : WorkItem → Prop} {a : Agenda τ} {item : WorkItem}

theorem within_empty (order : BagOrder) : (empty order : Agenda τ).Within kind :=
  ⟨Bag.only_empty order, nofun⟩

namespace Within

theorem mono (h : a.Within kind) (hkind : ∀ {item}, kind item → kind' item) : a.Within kind' :=
  ⟨h.queued.mono hkind, fun hd => hkind (h.waiting hd)⟩

theorem post (h : a.Within kind) (hitem : kind item) (tokens : TokenSet τ) :
    (a.post item tokens).2.Within kind := by
  have hset : ∀ {delta item' delta'}, (a.deltas.set item delta).get? item' = some delta' →
      kind item' := by
    intro delta item' delta' hd
    rw [Table.get?_set] at hd
    split at hd
    · rename_i heq
      exact heq ▸ hitem
    · exact h.waiting hd
  unfold Agenda.post
  split
  · exact h
  · split
    · exact ⟨h.queued, hset⟩
    · exact ⟨h.queued.add hitem, hset⟩

theorem schedule (h : a.Within kind) (hitem : kind item) : (a.schedule item).2.Within kind :=
  ⟨h.queued.add hitem, h.waiting⟩

theorem collect (h : a.Within kind) (item : WorkItem) : (a.collect item).2.Within kind := by
  refine ⟨h.queued, fun hd => ?_⟩
  rw [delta?_collect] at hd
  split at hd
  · cases hd
  · exact h.waiting hd

theorem withdraw (h : a.Within kind) (item : WorkItem) : (a.withdraw item).2.Within kind := by
  refine ⟨?_, fun hd => ?_⟩
  · unfold Agenda.withdraw
    split
    · exact h.queued
    · exact h.queued.remove item
  · rw [delta?_withdraw] at hd
    split at hd
    · cases hd
    · exact h.waiting hd

theorem startRound (h : a.Within kind) {bag : Bag WorkItem} {a' : Agenda τ}
    (hs : a.startRound = some (bag, a')) : bag.Only kind ∧ a'.Within kind := by
  obtain ⟨rfl, rfl⟩ := startRound_eq_some hs
  exact ⟨h.queued, Bag.only_empty _, h.waiting⟩

theorem putBack (h : a.Within kind) {bag : Bag WorkItem} (hbag : bag.Only kind) :
    (a.putBack bag).Within kind :=
  ⟨h.queued.foldl_add fun _ hq => hbag.present (Bag.mem_of_mem_pendingOf hq), h.waiting⟩

theorem inside {g g' : Graph φ τ} (h : a.Within (WorkItem.Inside g))
    (hg : ∀ {n}, g.contains n → g'.contains n) : a.Within (WorkItem.Inside g') :=
  h.mono fun hitem => hitem.mono hg

end Within

end Agenda

/-! ## 2. Passing on -/

namespace Graph

variable {g : Graph φ τ} {a : Agenda τ} {n : NodeId}

/-- Recorded members are nodes: only representatives have any. -/
theorem WellFormed.contains_member (hg : g.WellFormed) {m : NodeId} (hm : m ∈ g.members n) :
    g.contains m := by
  have hne : g.members n ≠ [] := List.ne_nil_of_mem hm
  have hn : g.contains n := Classical.byContradiction fun hc => hne (readAt_of_not_contains hc)
  have hrep : g.representative n = n :=
    Classical.byContradiction fun hr => hne (hg.members_of_ne hr)
  rw [← component_of_members hne] at hm
  exact ((hg.mem_component hn hrep).mp hm).1

theorem within_offer {kind : WorkItem → Prop} (h : a.Within kind)
    (hn : kind (.send (g.representative n))) (tokens : TokenSet τ) :
    (g.offer a n tokens).2.Within kind := by
  unfold offer
  dsimp only
  split
  · exact h
  · exact h.post hn _

/-- Links lead to nodes, and listeners are at nodes. -/
theorem within_forward (hg : g.WellFormed) (h : a.Within (WorkItem.Inside g)) (n : NodeId)
    (tokens : TokenSet τ) : (g.forward a n tokens).Within (WorkItem.Inside g) := by
  have hlistener : ∀ l ∈ g.listeners n, WorkItem.Inside g (.notify n l) :=
    fun _ hl => contains_of_mem_listeners hl
  have hsuccessor : ∀ s ∈ g.successors n, WorkItem.Inside g (.send (g.representative s)) :=
    fun _ hs => hg.contains_rep (hg.contains_successor hs)
  unfold forward
  refine List.foldlRecOn _ _ ?_ fun _ ha l hl => ha.post (hlistener l hl) tokens
  exact List.foldlRecOn _ _ h fun _ ha s hs => within_offer ha (hsuccessor s hs) tokens

theorem within_foldl_forward (hg : g.WellFormed) (h : a.Within (WorkItem.Inside g))
    (ns : List NodeId) (tokens : TokenSet τ) :
    (ns.foldl (fun a n => g.forward a n tokens) a).Within (WorkItem.Inside g) :=
  List.foldlRecOn ns _ h fun _ ha n _ => within_forward hg ha n tokens

end Graph

/-! ## 3. Operations -/

namespace Flow

open ValueFlow.Graph

variable {sieve : φ → TokenSet τ → TokenSet τ} {f f' : Flow φ τ} {op : Operation φ τ} {n : NodeId}
  {tokens : TokenSet τ}

/-- **All stored handles are those of nodes.** -/
structure Housed (f : Flow φ τ) : Prop where
  wellFormed : f.graph.WellFormed
  agenda : f.agenda.Within (WorkItem.Inside f.graph)

/-- What an operation itself names exists, too. -/
def Bound (f : Flow φ τ) : Operation φ τ → Prop
  | .link _ target => f.graph.contains target
  | .giveBack n _ _ => f.graph.contains n
  | .putBack bag => bag.Only (WorkItem.Inside f.graph)
  | _ => True

theorem Bound.anchored (h : f.Bound op) : f.Anchored op := by
  cases op with
  | link => exact h
  | _ => rfl

/-- No operation removes a node, unless all is cleared. -/
theorem Does.contains (h : Does sieve f op f') (hg : f.graph.WellFormed) (hop : op ≠ .clear)
    (hn : f.graph.contains n) : f'.graph.contains n := by
  cases h with
  | addNode label => exact contains_addNode.mpr (.inl hn)
  | link => exact contains_link.trans hn
  | deliver => exact contains_deliver.trans hn
  | setFilter _ hok =>
    obtain ⟨-, rfl⟩ := setFilter_eq_ok hok
    exact contains_modify.trans hn
  | subscribe => exact contains_subscribe.trans hn
  | condense roots => exact (contains_condense hg roots n).trans hn
  | execute item =>
    exact execute_cases (P := fun f' => f'.graph.contains n = true) item (fun _ => hn)
      fun _ _ _ _ => contains_deliver.trans hn
  | clear => exact absurd rfl hop
  | offer | refuse | schedule | giveBack | beginRound | putBack => exact hn

namespace Housed

theorem empty (order : BagOrder) : Housed (.empty order : Flow φ τ) :=
  ⟨wellFormed_empty, Agenda.within_empty order⟩

theorem deliver (h : f.Housed) (n : NodeId) (tokens : TokenSet τ) :
    (f.deliver sieve n tokens).2.Housed := by
  have hwf : (f.deliver sieve n tokens).2.graph.WellFormed := wellFormed_deliver h.wellFormed
  have hold : f.agenda.Within (WorkItem.Inside (f.deliver sieve n tokens).2.graph) :=
    h.agenda.inside fun hn => contains_deliver.trans hn
  refine ⟨hwf, ?_⟩
  rw [agenda_deliver]
  dsimp only
  split
  · exact hold
  · rename_i hsome
    have hgain : ¬ (f.gain sieve n tokens).isEmpty := fun he => hsome (by rw [he, Bool.true_or])
    rw [graph_deliver, if_neg hgain] at hwf hold ⊢
    exact within_foldl_forward hwf hold _ _

theorem link (h : f.Housed) {source target : NodeId} (hsource : f.graph.contains source)
    (htarget : f.graph.contains target) : (f.link sieve source target).2.Housed := by
  have hwf : (f.link sieve source target).2.graph.WellFormed :=
    wellFormed_link h.wellFormed hsource htarget
  have hold : f.agenda.Within (WorkItem.Inside (f.link sieve source target).2.graph) :=
    h.agenda.inside fun hn => contains_link.trans hn
  refine ⟨hwf, ?_⟩
  rw [agenda_link]
  dsimp only
  split
  · exact hold
  · rename_i hsome
    have hlinked : ¬ f.graph.linked source target := fun hl => hsome (by rw [hl, Bool.true_or])
    have hrep := hwf.contains_rep (contains_link.trans htarget)
    rw [graph_link, if_neg hlinked] at hold hrep ⊢
    exact within_offer hold hrep _

theorem fuse (h : f.Housed) {cycle : List NodeId} (hc : Fusable f.graph cycle) :
    (f.fuse cycle).Housed := by
  rcases length_lt_or_two_le cycle with hle | htwo
  · rw [fuse_of_length_le hle]
    exact h
  have hwf := wellFormed_fuse hc h.wellFormed
  have hold : f.agenda.Within (WorkItem.Inside (f.fuse cycle).graph) :=
    h.agenda.inside fun hn => contains_fuse.trans hn
  have hrep := hwf.contains_rep (contains_fuse.trans (hc.contains _ (least_mem_of_two_le htwo)))
  refine ⟨hwf, ?_⟩
  rw [graph_fuse htwo] at hwf hold hrep ⊢
  rw [fuse_eq htwo]
  refine List.foldlRecOn _ _ (List.foldlRecOn _ _ hold fun a ha r _ => ?_) fun a ha p _ => ?_
  · -- the work of a part waits for the whole
    have hwithdrawn := ha.withdraw (.send r)
    unfold reroute
    cases hw : a.withdraw (.send r) with
    | mk delta a' =>
      rw [hw] at hwithdrawn
      cases delta with
      | none => exact hwithdrawn
      | some waiting => exact within_offer hwithdrawn hrep waiting
  · unfold catchUp
    dsimp only
    split
    · exact ha
    · exact within_foldl_forward hwf ha _ _

theorem condense (h : f.Housed) (roots : List NodeId) : (f.condense roots).2.Housed :=
  condense_induction h.wellFormed.grouped roots
    (fun _ hu => ⟨h.wellFormed.of_unmarked hu,
      h.agenda.inside fun hn => (contains_of_unmarked hu).trans hn⟩)
    fun _ _ hc hf' => hf'.fuse hc

theorem execute (h : f.Housed) (item : WorkItem) : (f.execute sieve item).2.Housed := by
  have hcollected : Housed { f with agenda := (f.agenda.collect item).2 } :=
    ⟨h.wellFormed, h.agenda.collect item⟩
  exact execute_cases item (fun _ => hcollected) fun n tokens _ _ => hcollected.deliver n tokens

/-- **Operations keep all stored handles those of nodes**, whatever filters let through. -/
theorem does (h : f.Housed) (hdone : Does sieve f op f') (hop : f.Bound op) : f'.Housed := by
  have hwf := hdone.wellFormed hop.anchored h.wellFormed
  cases hdone with
  | addNode label => exact ⟨hwf, h.agenda.inside fun hn => contains_addNode.mpr (.inl hn)⟩
  | link target hsource => exact h.link hsource hop
  | deliver tokens => exact h.deliver _ tokens
  | offer tokens hn => exact ⟨hwf, within_offer h.agenda (h.wellFormed.contains_rep hn) tokens⟩
  | setFilter _ hok =>
    obtain ⟨-, rfl⟩ := setFilter_eq_ok hok
    exact ⟨hwf, h.agenda.inside fun hn => contains_modify.trans hn⟩
  | refuse => exact h
  | @subscribe n l hn =>
    have hnotify : WorkItem.Inside (f.subscribe sieve n l).graph (.notify n l) :=
      contains_subscribe.trans hn
    exact ⟨hwf, (h.agenda.inside fun hn => contains_subscribe.trans hn).post hnotify _⟩
  | condense roots => exact h.condense roots
  | execute item => exact h.execute item
  | schedule id =>
    have htask : WorkItem.Inside f.graph (.task id) := trivial
    exact ⟨hwf, h.agenda.schedule htask⟩
  | giveBack n l tokens =>
    have hnotify : WorkItem.Inside f.graph (.notify n l) := hop
    exact ⟨hwf, h.agenda.post hnotify tokens⟩
  | beginRound hbag => exact ⟨hwf, (h.agenda.startRound hbag).2⟩
  | putBack bag => exact ⟨hwf, h.agenda.putBack hop⟩
  | clear => exact ⟨hwf, Agenda.within_empty _⟩

end Housed

/-! ## 4. Nothing is out of bounds -/

/-- **No operation needs a node that does not exist**: given handles of nodes, the operations that
check answer what those do that do not. -/
structure InBounds (sieve : φ → TokenSet τ → TokenSet τ) (f : Flow φ τ) : Prop where
  deliver : ∀ n tokens, f.graph.contains n →
    f.deliver? sieve n tokens = some (f.deliver sieve n tokens)
  offer : ∀ n tokens, f.graph.contains n → f.offer? n tokens = some (f.offer n tokens)
  setFilter : ∀ n filter, f.graph.contains n → f.setFilter? n filter = some (f.setFilter n filter)
  subscribe : ∀ n l, f.graph.contains n → f.subscribe? sieve n l = some (f.subscribe sieve n l)
  link : ∀ source target, f.graph.contains source → f.graph.contains target →
    f.link? sieve source target = some (f.link sieve source target)
  execute : ∀ item, f.execute? sieve item = some (f.execute sieve item)
  condense : ∀ roots, f.condense? roots = some (f.condense roots)

theorem Housed.inBounds (h : f.Housed) : f.InBounds sieve where
  deliver _ tokens hn := deliver?_eq h.wellFormed hn tokens
  offer _ _ hn := if_pos hn
  setFilter _ _ hn := if_pos hn
  subscribe _ _ hn := if_pos hn
  link _ _ hs ht := by simp [link?, hs, ht]
  execute item := execute?_eq h.wellFormed fun hd => h.agenda.waiting hd
  condense roots := condense?_eq h.wellFormed roots

end Flow

end ValueFlow
