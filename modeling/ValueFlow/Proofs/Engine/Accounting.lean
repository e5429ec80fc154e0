import ValueFlow.Proofs.Engine.Identity
import ValueFlow.Proofs.Engine.Ownership
import ValueFlow.Proofs.Engine.Pending
import ValueFlow.Proofs.Engine.Resuming

/-!
# What is counted of passes

A pass counts, for every cycle that it fuses, the components that lose their lead. A component that
was fused in one pass may be fused again in a later one, together with all of its nodes. Still the
sum over all passes is the number of nodes that do not represent themselves: a node loses its lead
once, and never gets it back.

Passes that wait until they are due are paid for by work: each of them comes after as much work as
the settings ask for, and the work since the last one is still to be spent. Both kinds of work are
counted when a round ends, also if it ends by a failure.

* `Graph.followers`, `Flow.length_followers_condense`: who is represented by another node, and how
  many more they are after a pass;
* `Flow.Does.representative`: nothing but a pass changes who represents a node;
* `World.Accounted`, `lasting_accounted`, `Story.passes_accounted`: the accounts, whatever an engine
  goes through.
-/

namespace ValueFlow

variable {ε τ σ : Type} [Ordered τ]

/-! ## 1. Nodes without the lead -/

namespace Graph

variable {φ : Type} {g g' : Graph φ τ} {n : NodeId}

/-- **The nodes that do not represent themselves.** -/
def followers (g : Graph φ τ) : List NodeId := g.ids.filter fun n => g.representative n ≠ n

theorem mem_followers : n ∈ g.followers ↔ g.representative n ≠ n := by
  simp only [followers, List.mem_filter, decide_eq_true_eq, mem_ids, and_iff_right_iff_imp]
  intro hne
  by_contra hn
  exact hne (representative_of_not_contains (by simpa using hn))

theorem nodup_followers (g : Graph φ τ) : g.followers.Nodup := by
  refine List.Nodup.filter _ (List.nodup_range.map fun i j hij => ?_)
  exact congrArg NodeId.index hij

theorem representative_addNodes (labels : List (Option Label)) :
    (g.addNodes labels).representative n = g.representative n :=
  List.foldlRecOn (motive := fun g' : Graph φ τ => g'.representative n = _) labels _ rfl
    fun _ hg' _ _ => representative_addNode.trans hg'

theorem length_followers_congr (h : ∀ n, g'.representative n = g.representative n) :
    g'.followers.length = g.followers.length := by
  refine List.Perm.length_eq ((List.perm_ext_iff_of_nodup g'.nodup_followers
    g.nodup_followers).mpr fun n => ?_)
  rw [mem_followers, mem_followers, h]

end Graph

namespace Flow

open ValueFlow.Graph

variable {φ : Type} {f f' : Flow φ τ} {cycle : List NodeId} {n : NodeId}

/-- **By fusing, all but one lose their lead.** -/
theorem perm_followers_fuse (h : Fusable f.graph cycle) :
    (f.fuse cycle).graph.followers.Perm (cycle.erase (least cycle) ++ f.graph.followers) := by
  have hdisjoint : ∀ r ∈ cycle.erase (least cycle), r ∉ f.graph.followers := fun r hr hfollows =>
    mem_followers.mp hfollows (h.rep (List.mem_of_mem_erase hr))
  have hnodup : (cycle.erase (least cycle) ++ f.graph.followers).Nodup :=
    List.nodup_append'.mpr ⟨h.nodup.erase _, f.graph.nodup_followers, hdisjoint⟩
  refine (List.perm_ext_iff_of_nodup (nodup_followers _) hnodup).mpr fun n => ?_
  rw [mem_followers, List.mem_append, mem_followers, h.nodup.mem_erase_iff, representative_fuse h]
  by_cases hn : f.graph.representative n ∈ cycle
  · -- whoever follows one of the cycle now follows the least of them, which keeps the lead
    have hleast : least cycle ∈ cycle := least_mem (List.ne_nil_of_mem hn)
    rw [if_pos hn]
    constructor
    · intro hne
      by_cases hself : f.graph.representative n = n
      · exact .inl ⟨Ne.symm hne, hself ▸ hn⟩
      · exact .inr hself
    · rintro (⟨hne, -⟩ | hfollows) heq
      · exact hne heq.symm
      · exact hfollows (h.rep (heq ▸ hleast))
  · rw [if_neg hn]
    refine ⟨.inr, fun hor => hor.elim (fun hmem => ?_) id⟩
    exact absurd ((h.rep hmem.2).symm ▸ hmem.2) hn

theorem length_erase_least (cycle : List NodeId) :
    (cycle.erase (least cycle)).length = cycle.length - 1 := by
  cases cycle with
  | nil => rfl
  | cons r rs => exact List.length_erase_of_mem (least_mem (List.cons_ne_nil r rs))

theorem length_followers_foldl_fuse (cycles : List (List NodeId)) (f : Flow φ τ)
    (hfusable : ∀ c ∈ cycles, Fusable f.graph c)
    (hdisjoint : cycles.Pairwise fun c c' => ∀ r ∈ c, r ∉ c') :
    (cycles.foldl fuse f).graph.followers.length =
      (cycles.map fun c => c.length - 1).sum + f.graph.followers.length := by
  induction cycles generalizing f with
  | nil => simp
  | cons c cycles ih =>
    have hc := hfusable c List.mem_cons_self
    obtain ⟨hother, hdisjoint⟩ := List.pairwise_cons.mp hdisjoint
    have hrest : ∀ c' ∈ cycles, Fusable (f.fuse c).graph c' := fun c' hc' =>
      hc.fuse_of_disjoint (hfusable c' (List.mem_cons_of_mem _ hc'))
        fun r hr hrc => hother c' hc' r hrc hr
    rw [List.foldl_cons, ih (f.fuse c) hrest hdisjoint, (perm_followers_fuse hc).length_eq,
      List.length_append, length_erase_least, List.map_cons, List.sum_cons]
    omega

/-- Cycles of one component add nothing to what is reported. -/
theorem absorbed_reportOf (s : Survey φ τ) :
    (reportOf s).absorbed = (s.cycles.map fun c => c.length - 1).sum := by
  show ((s.cycles.filter fun c => 2 ≤ c.length).map fun c => c.length - 1).sum = _
  induction s.cycles with
  | nil => rfl
  | cons c cycles ih =>
    rw [List.map_cons, List.sum_cons, ← ih]
    by_cases hc : 2 ≤ c.length
    · rw [List.filter_cons_of_pos (by simpa using hc), List.map_cons, List.sum_cons]
    · rw [List.filter_cons_of_neg (by simpa using hc)]
      omega

/-- **A pass reports how many nodes lost their lead.** -/
theorem length_followers_condense (hg : f.graph.Grouped) (roots : List NodeId) :
    (f.condense roots).2.graph.followers.length =
      (f.condense roots).1.absorbed + f.graph.followers.length := by
  have hs := Survey.run_found hg roots
  have hfold := length_followers_foldl_fuse (Survey.run f.graph roots).cycles
    { f with graph := (Survey.run f.graph roots).graph } (fun c hc => hs.fusable hg hc) hs.disjoint
  have hstart : (Survey.run f.graph roots).graph.followers.length = f.graph.followers.length :=
    length_followers_congr fun n => representative_of_unmarked hs.unmarked
  show _ = (reportOf (Survey.run f.graph roots)).absorbed + _
  rw [absorbed_reportOf, ← hstart]
  exact hfold

/-- **Nothing but a pass changes who represents a node**, apart from clearing everything. -/
theorem Does.representative {sieve : φ → TokenSet τ → TokenSet τ} {op : Operation φ τ}
    (h : Does sieve f op f') (hpass : ∀ roots, op ≠ .condense roots) (hclear : op ≠ .clear)
    (n : NodeId) : f'.graph.representative n = f.graph.representative n := by
  cases h with
  | addNode => exact representative_addNode
  | link => exact representative_link
  | deliver => exact representative_deliver
  | setFilter _ hok =>
    obtain ⟨-, rfl⟩ := setFilter_eq_ok hok
    exact representative_modify fun _ => rfl
  | subscribe => exact representative_subscribe
  | condense roots => exact absurd rfl (hpass roots)
  | clear => exact absurd rfl hclear
  | execute item =>
    exact execute_cases (P := fun f' => f'.graph.representative n = f.graph.representative n) item
      (fun _ => rfl) fun _ _ _ _ => representative_deliver
  | offer | refuse | schedule | giveBack | beginRound | putBack => rfl

end Flow

/-! ## 2. The accounts -/

/-- **What is counted of work and passes.** -/
structure Ledger where
  /-- how much work lies between two passes -/
  interval : Int
  work : Nat
  /-- the work since the last pass -/
  unspent : Nat
  passes : Nat
  absorbed : Nat

/-- A pass is made whether it is due or not. -/
def Deed.isForcedPass : Deed ε τ σ → Bool
  | .ask .condense => true
  | _ => false

/-- Since the last reset all passes waited until they were due. -/
def Unforced (log : List (Entry ε τ σ)) : Prop := ∀ x ∈ recent log, x.deed.isForcedPass = false

theorem Unforced.of_concat {l : List (Entry ε τ σ)} {x : Entry ε τ σ} (h : Unforced (l ++ [x]))
    (hx : x.isReset = false) : Unforced l := by
  intro y hy
  refine h y ?_
  rw [recent_concat hx]
  exact List.mem_append_left _ hy

theorem not_unforced_condense {l : List (Entry ε τ σ)} {w : World ε τ σ} :
    ¬ Unforced (l ++ [⟨.ask .condense, w⟩]) := by
  intro h
  have hmem : ⟨.ask .condense, w⟩ ∈ recent (l ++ [⟨.ask .condense, w⟩]) := by
    rw [recent_concat rfl]
    exact List.mem_concat_self
  cases h _ hmem

namespace World

variable {w w' : World ε τ σ} {l l' : List (Entry ε τ σ)}

def ledger (w : World ε τ σ) : Ledger where
  interval := w.engine.settings.sccInterval.toInt
  work := w.engine.stats.work
  unspent := w.engine.workSincePass
  passes := w.engine.stats.passes
  absorbed := w.engine.stats.absorbed

theorem condenseDue_iff : w.condenseDue = true ↔
    0 < w.ledger.interval ∧ w.ledger.interval ≤ w.ledger.unspent := by
  unfold condenseDue Settings.condenses
  rw [Bool.and_eq_true, decide_eq_true_eq, decide_eq_true_eq, Int64.lt_iff_toInt_lt]
  rfl

theorem condenseIfDue_of_due (h : w.condenseDue = true) : w.condenseIfDue.2 = w.condense.2 := by
  rw [condenseIfDue, if_pos h]

theorem condenseIfDue_of_not_due (h : w.condenseDue = false) : w.condenseIfDue.2 = w := by
  rw [condenseIfDue, if_neg (by simp [h])]

/-- Whatever is due is made up for. -/
theorem unspent_condenseIfDue (w : World ε τ σ)
    (hpositive : 0 < w.condenseIfDue.2.ledger.interval) :
    w.condenseIfDue.2.ledger.unspent < w.condenseIfDue.2.ledger.interval := by
  cases hdue : w.condenseDue with
  | true =>
    rw [condenseIfDue_of_due hdue] at hpositive ⊢
    exact hpositive
  | false =>
    rw [condenseIfDue_of_not_due hdue] at hpositive ⊢
    by_contra hle
    have htrue := condenseDue_iff.mpr ⟨hpositive, not_lt.mp hle⟩
    rw [hdue] at htrue
    cases htrue

/-- **The accounts are in order**: what was counted as absorbed are the nodes without the lead, and
if no pass was forced, each was paid for by work. -/
structure Accounted (l : List (Entry ε τ σ)) (w : World ε τ σ) : Prop where
  grouped : w.flow.graph.Grouped
  absorbed : w.ledger.absorbed = w.flow.graph.followers.length
  paid : Unforced l → 0 < w.ledger.interval →
    w.ledger.passes * w.ledger.interval + w.ledger.unspent ≤ w.ledger.work
  unpaid : Unforced l → w.ledger.interval ≤ 0 → w.flow.graph.followers = []

namespace Accounted

theorem empty (hgraph : w.flow.graph = .empty) (habsorbed : w.ledger.absorbed = 0)
    (hpasses : w.ledger.passes = 0) (hunspent : w.ledger.unspent = 0) : w.Accounted l where
  grouped := hgraph ▸ Graph.wellFormed_empty.grouped
  absorbed := by
    rw [habsorbed, hgraph]
    rfl
  paid _ _ := by
    rw [hpasses, hunspent]
    simp
  unpaid _ _ := by
    rw [hgraph]
    rfl

/-- Work was done, and nobody lost the lead by it. -/
theorem earn (h : w.Accounted l) (executed : Nat) (hl : Unforced l' → Unforced l)
    (hgrouped : w'.flow.graph.Grouped)
    (hrep : ∀ n, w'.flow.graph.representative n = w.flow.graph.representative n)
    (hledger : w'.ledger = { w.ledger with
      work := w.ledger.work + executed, unspent := w.ledger.unspent + executed }) :
    w'.Accounted l' where
  grouped := hgrouped
  absorbed := by
    rw [hledger, Graph.length_followers_congr hrep]
    exact h.absorbed
  paid hunforced hpositive := by
    rw [hledger] at hpositive ⊢
    have hpaid := h.paid (hl hunforced) hpositive
    dsimp only
    omega
  unpaid hunforced hle := by
    rw [hledger] at hle
    rw [← List.length_eq_zero_iff, Graph.length_followers_congr hrep, List.length_eq_zero_iff]
    exact h.unpaid (hl hunforced) hle

/-- Only the ledger matters, and who represents a node. -/
theorem congr (h : w.Accounted l) (hl : Unforced l' → Unforced l)
    (hgrouped : w'.flow.graph.Grouped)
    (hrep : ∀ n, w'.flow.graph.representative n = w.flow.graph.representative n)
    (hledger : w'.ledger = w.ledger) : w'.Accounted l' :=
  h.earn 0 hl hgrouped hrep hledger

/-- **A pass**, either forced or paid for. -/
theorem condense (h : w.Accounted l)
    (hpaid : Unforced l' → Unforced l ∧ w.condenseDue = true) : w.condense.2.Accounted l' where
  grouped := Flow.grouped_condense h.grouped _
  absorbed := by
    refine Eq.trans ?_ (Flow.length_followers_condense h.grouped _).symm
    rw [← h.absorbed]
    exact Nat.add_comm _ _
  paid hunforced _ := by
    obtain ⟨hl, hdue⟩ := hpaid hunforced
    obtain ⟨hpositive, hle⟩ := condenseDue_iff.mp hdue
    have hbefore := h.paid hl hpositive
    -- the interval that is taken off the work since the last pass pays for this one
    have hone : ((w.ledger.passes + 1 : Nat) : Int) * w.ledger.interval =
        w.ledger.passes * w.ledger.interval + w.ledger.interval := by
      rw [Int.natCast_add, Int.add_mul, Int.natCast_one, Int.one_mul]
    show ((w.ledger.passes + 1 : Nat) : Int) * w.ledger.interval + (0 : Nat) ≤ w.ledger.work
    omega
  unpaid hunforced hle := by
    obtain ⟨hpositive, -⟩ := condenseDue_iff.mp (hpaid hunforced).2
    exact absurd hpositive (not_lt.mpr hle)

theorem create [DecidableEq ε] (h : w.Accounted l) (hl : Unforced l' → Unforced l) {entity : ε}
    {c : Context ε} (hfind : w.engine.variants.find? entity c = none) {shape : Shape}
    {created : VariantId × World ε τ σ} (hcreate : w.create entity c shape = created) :
    created.2.Accounted l' := by
  obtain ⟨labels, _, heq⟩ := create_eq shape hfind
  rw [heq] at hcreate
  subst hcreate
  exact h.congr hl (h.grouped.addNodes labels) (fun _ => Graph.representative_addNodes _) rfl

end Accounted

end World

/-! ## 3. Requests -/

namespace Request

variable {q : Request ε τ σ}

/-- Only passes and resets are written into the ledger. -/
theorem ledger_perform (hcondense : q ≠ .condense) (hdue : q ≠ .condenseIfDue)
    (hreset : q ≠ .reset) (w : World ε τ σ) : (q.perform w).ledger = w.ledger := by
  by_cases hadd : q = .addNode
  · subst hadd
    rfl
  · obtain ⟨_, _, _, _, _, _, h⟩ := perform_eq hadd hcondense hdue hreset w
    rw [h]
    rfl

theorem representative_perform (hcondense : q ≠ .condense) (hdue : q ≠ .condenseIfDue)
    (hreset : q ≠ .reset) (w : World ε τ σ) (n : NodeId) :
    (q.perform w).flow.graph.representative n = w.flow.graph.representative n := by
  rcases q.flow_perform w with hflow | ⟨op, hasks, hdoes⟩
  · rw [hflow]
  · refine hdoes.representative (fun roots hop => ?_) (hasks.ne_clear hreset) n
    subst hop
    cases hasks with
    | condense => exact hcondense rfl
    | condenseIfDue => exact hdue rfl

end Request

theorem World.Accounted.ask {l : List (Entry ε τ σ)} {w : World ε τ σ} (h : w.Accounted l)
    (q : Request ε τ σ) : (q.perform w).Accounted (l ++ [⟨.ask q, w⟩]) := by
  by_cases hreset : q = .reset
  · subst hreset
    exact .empty rfl rfl rfl rfl
  have hl : Unforced (l ++ [⟨.ask q, w⟩]) → Unforced l := fun hunforced => by
    refine hunforced.of_concat ?_
    cases q <;> first | rfl | exact absurd rfl hreset
  by_cases hcondense : q = .condense
  · subst hcondense
    exact h.condense fun hunforced => absurd hunforced not_unforced_condense
  by_cases hdue : q = .condenseIfDue
  · subst hdue
    show w.condenseIfDue.2.Accounted _
    cases hw : w.condenseDue with
    | true =>
      rw [World.condenseIfDue_of_due hw]
      exact h.condense fun hunforced => ⟨hl hunforced, hw⟩
    | false =>
      rw [World.condenseIfDue_of_not_due hw]
      exact h.congr hl h.grouped (fun _ => rfl) rfl
  · exact h.congr hl (q.grouped_perform h.grouped)
      (Request.representative_perform hcondense hdue hreset w)
      (Request.ledger_perform hcondense hdue hreset w)

/-! ## 4. Stories -/

theorem World.Accounted.execute {l l' : List (Entry ε τ σ)} {w : World ε τ σ} (h : w.Accounted l)
    (hl : Unforced l' → Unforced l) {item : WorkItem} :
    (w.setFlow (w.flow.execute w.sieve item).2).Accounted l' :=
  h.congr hl ((Flow.Does.execute item).grouped h.grouped)
    ((Flow.Does.execute item).representative nofun nofun) rfl

variable [DecidableEq ε]

/-- **The accounts stay in order.** -/
theorem lasting_accounted (fits : Semantics ε τ σ → Prop) :
    Lasting fits (fun l m => m.world.Accounted l) where
  step h hstep := by
    cases hstep with
    | ask q => exact h.ask q
    | discover _ hfind _ hcreate => exact h.create (·.of_concat rfl) hfind hcreate
    | send | hear | lose => exact h.execute (·.of_concat rfl)
    -- what was executed before a failure counts as well
    | finish executed | breakOff executed =>
      exact h.earn executed (·.of_concat rfl) h.grouped (fun _ => rfl) rfl
    | _ => exact h.congr (·.of_concat rfl) h.grouped (fun _ => rfl) rfl
  new _ _ _ := .empty rfl rfl rfl rfl
  install h _ := h.congr id h.grouped (fun _ => rfl) rfl
  equip _ _ _ _ _ h := h.congr id h.grouped (fun _ => rfl) rfl
  restart _ := .empty rfl rfl rfl rfl
  outside h := h

/-- After a cycle there is less work left than a pass asks for. -/
theorem Cycle.unspent_lt {w w' : World ε τ σ} (h : Cycle w w')
    (hpositive : 0 < w'.ledger.interval) : w'.ledger.unspent < w'.ledger.interval := by
  obtain ⟨_, _, w₁, -, rfl⟩ := h
  exact w₁.unspent_condenseIfDue hpositive

/-- **Passes are accounted for.** Whatever an engine goes through, what it counts as absorbed are
the nodes that do not represent themselves. If all passes waited until they were due, each of them
was paid for by as much work as the settings ask for, and what was done since the last one comes on
top; if no interval is set, no node is ever absorbed. And whenever a cycle of a call is over, less
work is left than a pass asks for; so it is at the end of a call without a failure, unless the call
did nothing. -/
theorem Story.passes_accounted {fits : Semantics ε τ σ → Prop} {allowed : Deed ε τ σ → Prop}
    {log : List (Entry ε τ σ)} {w : World ε τ σ} (h : Story fits allowed log w) :
    w.engine.stats.absorbed = w.flow.graph.followers.length ∧
    (Unforced log → 0 < w.engine.settings.sccInterval.toInt →
      w.engine.stats.passes * w.engine.settings.sccInterval.toInt + w.engine.workSincePass ≤
        w.engine.stats.work) ∧
    (Unforced log → w.engine.settings.sccInterval.toInt ≤ 0 →
      ∀ n, w.flow.graph.representative n = n) ∧
    (∀ w', Cycle w w' → 0 < w'.engine.settings.sccInterval.toInt →
      w'.engine.workSincePass < w'.engine.settings.sccInterval.toInt) ∧
    ∀ mayProceed depth rounds i completion w',
      w.solveWith mayProceed (World.run depth) rounds i = some (.ok completion, w') →
        w' = w ∨ (0 < w'.engine.settings.sccInterval.toInt →
          w'.engine.workSincePass < w'.engine.settings.sccInterval.toInt) := by
  have haccounted := h.holds (lasting_accounted fits)
  refine ⟨haccounted.absorbed, haccounted.paid, ?_, fun _ => Cycle.unspent_lt, ?_⟩
  · intro hunforced hle n
    by_contra hn
    have hmem := Graph.mem_followers.mpr hn
    rw [haccounted.unpaid hunforced hle] at hmem
    cases hmem
  · intro mayProceed depth rounds i completion w' hsolve
    have hcycles := (World.solveWith_cycles hsolve).1
    rcases Relation.ReflTransGen.cases_tail hcycles with heq | ⟨_, -, hlast⟩
    · exact .inl heq
    · exact .inr (Cycle.unspent_lt hlast)

/-- Three nodes in a circle and two tasks, of which the first leads to another one. -/
def layCircle : Routine Nat Nat Unit :=
  .addNode fun a => .addNode fun b => .addNode fun c =>
    .link a b fun _ => .link b c fun _ => .link c a fun _ =>
      .postpone (.postpone .done fun _ => .done) fun _ => .postpone .done fun _ =>
        .round fun _ => .condenseIfDue fun _ => .done

/-- A pass is due after two items of work. -/
def sparingWorld : World Nat Nat Unit :=
  ⟨.new { (default : Settings) with sccInterval := 2 }, (), true⟩

theorem passes_accounted_circle :
    ∃ w w', Story (fun _ => True) (fun _ => True) (World.deeds 3 layCircle sparingWorld) w ∧
      Unforced (World.deeds 3 layCircle sparingWorld) ∧ Cycle w w' ∧
      w.engine.stats.passes = 1 ∧ w.flow.graph.followers = [⟨1⟩, ⟨2⟩] ∧
      w.engine.stats.absorbed = w.flow.graph.followers.length ∧
      w.engine.stats.passes * 2 + w.engine.workSincePass ≤ w.engine.stats.work ∧
      w'.engine.workSincePass = 1 ∧ w'.engine.workSincePass < 2 := by
  have hfacts : (World.run 3 layCircle sparingWorld).map (fun done =>
      (done.2.engine.settings.sccInterval, done.2.engine.stats.passes,
        done.2.flow.graph.followers)) = some (2, 1, [⟨1⟩, ⟨2⟩]) := by decide +kernel
  have hround : (World.run 3 layCircle sparingWorld).bind (fun done =>
      (done.2.round (World.run 2)).map fun ended =>
        (ended.1.toOption, ended.2.condenseIfDue.2.engine.settings.sccInterval,
          ended.2.condenseIfDue.2.engine.workSincePass)) = some (some (some 1), 2, 1) := by
    decide +kernel
  have hunforced : ∀ x ∈ recent (World.deeds 3 layCircle sparingWorld),
      x.deed.isForcedPass = false := by decide +kernel
  obtain ⟨⟨_, w⟩, hrun, heq⟩ := Option.map_eq_some_iff.mp hfacts
  rw [hrun, Option.bind_some] at hround
  obtain ⟨⟨answer, w₁⟩, hround, heq'⟩ := Option.map_eq_some_iff.mp hround
  simp only [Prod.mk.injEq] at heq heq'
  obtain ⟨hinterval, hpasses, hfollowers⟩ := heq
  obtain ⟨hanswer, hinterval', hunspent⟩ := heq'
  have hcycle : Cycle w w₁.condenseIfDue.2 := by
    cases answer with
    | error => cases hanswer
    | ok =>
      cases hanswer
      exact ⟨2, 1, w₁, hround, rfl⟩
  have hnew : Story (fun _ => True) (fun _ => True) [] sparingWorld := .new _ () true
  have hstory := hnew.call (fun _ _ => trivial) hrun
  rw [List.nil_append] at hstory
  obtain ⟨habsorbed, hpaid, -, hcycles, -⟩ := hstory.passes_accounted
  have hpaid := hpaid hunforced (by rw [hinterval]; decide)
  have hleft := hcycles _ hcycle (by rw [hinterval']; decide)
  rw [hinterval] at hpaid
  rw [hinterval'] at hleft
  exact ⟨w, _, hstory, hunforced, hcycle, hpasses, hfollowers, habsorbed, Int.ofNat_le.mp hpaid,
    hunspent, Int.ofNat_lt.mp hleft⟩

end ValueFlow
