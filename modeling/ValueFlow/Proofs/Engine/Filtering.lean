import Mathlib.Data.List.Chain
import ValueFlow.Proofs.Engine.Handles
import ValueFlow.Proofs.Flow.Hearing
import ValueFlow.Proofs.Types.Climbing
import ValueFlow.Proofs.Types.Growth
import ValueFlow.Types.Manager

/-!
# Filters that can be relied on

Filters look at what the collaborators share, so what they let pass may change from one step to the
next. Filters for types do this: a registry that learns of a supertype lets more objects pass than
before. But it forgets nothing, and what has passed goes on to pass. No more than that is asked of
filters, and only for the worlds that a run goes through.

* `Reliable`: the filters of these worlds decide token by token, and let pass what they let pass
  before;
* `Step.putUp`, `lasting_putUp`, `Course.putUp`: a node has only such filters as were put up;
* `Filter.Persistent`, `Story.reliable`: filters that go by something that grows can be relied on
  while it grows;
* `TypeRegistry.persistent_typeFilter`: filters for types are of this kind.
-/

namespace ValueFlow

open ValueFlow.Flow

variable {ε τ σ : Type} [Ordered τ]

/-! ## 1. Reliable filters -/

/-- **The filter decides token by token**, whatever the collaborators share. -/
def Filter.Retaining (f : Filter σ τ) : Prop :=
  ∀ shared, ∃ keeps : τ → Bool, ∀ tokens, f shared tokens = tokens.filter keeps

/-- What the filters of the later world would have let pass in the earlier one, they let pass. -/
def World.StillPasses (w w' : World ε τ σ) : Prop :=
  ∀ n f t, w'.flow.graph.filter? n = some f → Passes w.sieve f t → Passes w'.sieve f t

/-- **The filters of these worlds can be relied on.** The worlds follow one another. -/
structure Reliable (worlds : List (World ε τ σ)) : Prop where
  retaining : ∀ w ∈ worlds, ∀ {n f}, w.flow.graph.filter? n = some f → Filter.Retaining f
  stillPasses : worlds.IsChain World.StillPasses

/-- Filters that could be relied on so far. -/
theorem Reliable.left {worlds worlds' : List (World ε τ σ)} (h : Reliable (worlds ++ worlds')) :
    Reliable worlds where
  retaining w hw := h.retaining w (List.mem_append_left _ hw)
  stillPasses := h.stillPasses.left_of_append

/-! ## 2. Filters that were put up -/

/-- The filters that are put up by a deed are of this kind. -/
def Entry.PutsUp (P : Filter σ τ → Prop) (x : Entry ε τ σ) : Prop :=
  match x.deed with
  | .ask (.setFilter _ f) => P f
  | .ask (.filterByType _ type) => ∀ m, x.world.engine.tokenManager = some m →
      ∀ f, (m.typeFilter type x.world.shared).1 = some f → P f
  | _ => True

theorem Graph.filter?_addNodes {φ : Type} {g : Graph φ τ} {n : NodeId}
    (labels : List (Option Label)) : (g.addNodes labels).filter? n = g.filter? n :=
  List.foldlRecOn (motive := fun g' : Graph φ τ => g'.filter? n = g.filter? n) labels _ rfl
    fun _ hg _ _ => Graph.filter?_addNode.trans hg

variable [DecidableEq ε] {P : Filter σ τ → Prop}

/-- **A step leaves only filters that were there or are put up by it.** -/
theorem Step.putUp {m m' : Moment ε τ σ} {d : Deed ε τ σ} (h : Step m d m')
    (hwf : m.world.flow.graph.WellFormed) (hd : Entry.PutsUp P ⟨d, m.world⟩)
    (hm : ∀ {n f}, m.world.flow.graph.filter? n = some f → P f) {n : NodeId} {f : Filter σ τ}
    (hf : m'.world.flow.graph.filter? n = some f) : P f := by
  cases h with
  | @ask w _ _ q =>
    rcases q.flow_perform w with hflow | ⟨op, hasks, hdoes⟩
    · exact hm (hflow ▸ hf)
    · rcases hdoes.filter?_or hwf hf with hold | rfl
      · exact hm hold
      · cases hasks with
        | setFilter => exact hd
        | filterByType _ hmanager hfilter => exact hd _ hmanager f (congrArg Prod.fst hfilter)
  | discover _ hfind _ hcreate =>
    obtain ⟨labels, _, heq⟩ := World.create_eq _ hfind
    rw [heq] at hcreate
    subst hcreate
    exact hm ((Graph.filter?_addNodes labels).symm.trans hf)
  | send => exact hm ((readings_execute _ n).2.symm.trans hf)
  | _ => exact hm hf

theorem lasting_putUp (fits : Semantics ε τ σ → Prop) (P : Filter σ τ → Prop) :
    Lasting fits (fun l m => (∀ x ∈ l, x.isReset = false) → (∀ x ∈ l, x.PutsUp P) →
      m.Housed ∧ ∀ {n f}, m.world.flow.graph.filter? n = some f → P f) where
  step h hstep hfree hput := by
    obtain ⟨hfree, hlast⟩ := List.forall_mem_append.mp hfree
    obtain ⟨hput, hlast'⟩ := List.forall_mem_append.mp hput
    obtain ⟨hhoused, hfilters⟩ := h hfree hput
    exact ⟨hstep.housed (hlast _ List.mem_cons_self) hhoused,
      hstep.putUp hhoused.flow.wellFormed (hlast' _ List.mem_cons_self) hfilters⟩
  new _ _ _ hfree _ := ⟨(lasting_housed fits).new _ _ _ hfree, fun hf => (by cases hf)⟩
  install h hs hfree hput :=
    ⟨(lasting_housed fits).install (fun _ => (h hfree hput).1) hs hfree, (h hfree hput).2⟩
  equip _ _ _ _ _ h hfree hput :=
    ⟨(lasting_housed fits).equip _ _ _ _ _ (fun _ => (h hfree hput).1) hfree, (h hfree hput).2⟩
  restart _ hfree _ := ⟨⟨.empty _, nofun, nofun⟩, fun hf => (by cases hf)⟩
  outside h hfree hput :=
    ⟨(lasting_housed fits).outside (fun _ => (h hfree hput).1) hfree, (h hfree hput).2⟩

/-- **All along a course there are only filters of a kind**, if those are that are put up. -/
theorem Course.putUp {m m' : Moment ε τ σ} {log : List (Entry ε τ σ)} (h : Course m log m')
    (hfree : ∀ x ∈ log, x.isReset = false) (hput : ∀ x ∈ log, x.PutsUp P)
    (hm : m.Housed ∧ ∀ {n f}, m.world.flow.graph.filter? n = some f → P f) {x : Entry ε τ σ}
    (hx : x ∈ log) {n : NodeId} {f : Filter σ τ} (hf : x.world.flow.graph.filter? n = some f) :
    P f := by
  induction h with
  | nil => cases hx
  | cons hstep _ ih =>
    obtain ⟨hreset, hfree⟩ := List.forall_mem_cons.mp hfree
    obtain ⟨hhead, hput⟩ := List.forall_mem_cons.mp hput
    rcases List.mem_cons.mp hx with rfl | hx
    · exact hm.2 hf
    · exact ih hfree hput
        ⟨hstep.housed hreset hm.1, hstep.putUp hm.1.flow.wellFormed hhead hm.2⟩ hx

/-! ## 3. Filters that go by something that grows -/

/-- **The filter lets pass what it let pass**, while what is shared grows. -/
structure Filter.Persistent (grows : σ → σ → Prop) (f : Filter σ τ) : Prop where
  retaining : Filter.Retaining f
  passes : ∀ {shared shared' t}, grows shared shared' → t ∈ f shared (.singleton t) →
    t ∈ f shared' (.singleton t)

/-- **Filters can be relied on** if all that are put up go by something that grows. -/
theorem Story.reliable {fits : Semantics ε τ σ → Prop} {allowed : Deed ε τ σ → Prop}
    {log : List (Entry ε τ σ)} {w : World ε τ σ} {grows : σ → σ → Prop}
    (h : Story fits allowed log w) (hfree : ∀ x ∈ log, x.isReset = false)
    (hput : ∀ x ∈ log, x.PutsUp (Filter.Persistent grows))
    (hgrows : ((log.map Entry.world ++ [w]).map World.shared).IsChain grows) :
    Reliable (log.map Entry.world ++ [w]) := by
  have hall : ∀ v ∈ log.map Entry.world ++ [w], ∀ {n f}, v.flow.graph.filter? n = some f →
      Filter.Persistent grows f := by
    intro v hv
    rcases List.mem_append.mp hv with hv | hv
    · obtain ⟨x, hx, rfl⟩ := List.mem_map.mp hv
      obtain ⟨l, l', rfl⟩ := List.append_of_mem hx
      exact ((h.before rfl).holds (lasting_putUp fits _)
        (fun y hy => hfree y (List.mem_append_left _ hy))
        fun y hy => hput y (List.mem_append_left _ hy)).2
    · obtain rfl := List.mem_singleton.mp hv
      exact (h.holds (lasting_putUp fits _) hfree hput).2
  refine ⟨fun v hv _ _ hf => (hall v hv hf).retaining, ?_⟩
  refine ((List.isChain_map _).mp hgrows).imp_of_mem_imp fun v v' _ hv' hshared n f t hf ht => ?_
  exact (hall v' hv' hf).passes hshared ht

/-! ### What is shared -/

/-- What a deed does to what is shared lets it grow. -/
def Entry.Teaches (grows : σ → σ → Prop) (x : Entry ε τ σ) : Prop :=
  match x.deed with
  | .ask q => grows x.world.shared (q.perform x.world).shared
  | _ => True

section Shared

variable {grows : σ → σ → Prop} {m m' : Moment ε τ σ} {d : Deed ε τ σ} {log : List (Entry ε τ σ)}

theorem Step.teaches (hrefl : ∀ s, grows s s) (h : Step m d m')
    (hd : Entry.Teaches grows ⟨d, m.world⟩) : grows m.world.shared m'.world.shared := by
  cases h with
  | ask q => exact hd
  | discover _ hfind _ hcreate =>
    obtain ⟨labels, _, heq⟩ := World.create_eq _ hfind
    rw [heq] at hcreate
    subst hcreate
    exact hrefl _
  | _ => exact hrefl _

/-- **What is shared grows** from one deed to the next. -/
theorem Course.isChain_shared (hrefl : ∀ s, grows s s) (h : Course m log m')
    (hlog : ∀ x ∈ log, x.Teaches grows) :
    ((log.map Entry.world ++ [m'.world]).map World.shared).IsChain grows := by
  induction h with
  | nil => exact .singleton _
  | cons hstep hrest ih =>
    obtain ⟨hd, hlog⟩ := List.forall_mem_cons.mp hlog
    refine (ih hlog).cons fun shared hshared => ?_
    cases hrest <;> cases hshared <;> exact hstep.teaches hrefl hd

end Shared

/-! ## 4. Filters for types -/

namespace TypeRegistry

variable {r r' : TypeRegistry}

theorem Grows.above (h : r.Grows r') {i j : Nat} (hj : j ∈ Climb.above r.tables.supertypes i) :
    j ∈ Climb.above r'.tables.supertypes i := by
  unfold Climb.above at hj ⊢
  cases hrow : r.tables.supertypes[i]? with
  | none =>
    rw [hrow] at hj
    cases hj
  | some row =>
    obtain ⟨row', hrow', hsub⟩ := h.supertypes hrow
    rw [hrow] at hj
    rw [hrow']
    exact hsub j hj

/-- **What a registry lets pass, it lets pass when it has learned more.** -/
theorem Grows.admits (h : r.Grows r') {target : Nat} {symbol : Symbol}
    (hadmits : r.admits target symbol = true) : r'.admits target symbol = true := by
  unfold TypeRegistry.admits TypeTables.symbolType? at hadmits ⊢
  cases htype : r.tables.symbolTypes[symbol.toNat]? with
  | none =>
    rw [htype] at hadmits
    cases hadmits
  | some type =>
    rw [htype] at hadmits
    rw [h.symbolTypes htype]
    exact below_eq_true_iff.mpr
      (Relation.ReflTransGen.mono (fun _ _ => h.above) _ _ (below_eq_true_iff.mp hadmits))

/-- **Filters for types let pass what they let pass**, wherever the registry is kept. -/
theorem persistent_typeFilter {get : σ → TypeRegistry} {put : TypeRegistry → σ → σ} {type : String}
    {shared : σ} {f : Filter σ Symbol}
    (hf : ((manager get put).typeFilter type shared).1 = some f) :
    Filter.Persistent (fun s s' => (get s).Grows (get s')) f := by
  obtain ⟨filter, -, rfl⟩ := Option.map_eq_some_iff.mp hf
  refine ⟨fun s => ⟨(get s).admits filter.target, fun _ => rfl⟩, fun {s s' t} hgrows ht => ?_⟩
  obtain ⟨hmem, hadmits⟩ := SortedSet.mem_filter.mp ht
  exact SortedSet.mem_filter.mpr ⟨hmem, hgrows.admits hadmits⟩

end TypeRegistry

/-- No filter is put up but those for types, and nothing else is shared instead. -/
def Deed.isTyped : Deed ε τ σ → Bool
  | .ask (.setFilter _ _) => false
  | .ask (.replace _) => false
  | _ => true

/-- Everything is done in worlds that are set up alike. -/
theorem Course.sameSetup_of_mem {m m' : Moment ε τ σ} {log : List (Entry ε τ σ)}
    (h : Course m log m') {x : Entry ε τ σ} (hx : x ∈ log) : m.world.SameSetup x.world := by
  obtain ⟨before, after, rfl⟩ := List.append_of_mem hx
  obtain ⟨m₁, hbefore, hworld⟩ := h.split_cons
  exact hworld ▸ hbefore.sameSetup

omit [DecidableEq ε] in
theorem World.shared_filterByType {w : World ε τ σ} {m : TokenManager σ τ}
    (hm : w.engine.tokenManager = some m) (n : NodeId) (type : String) :
    (w.filterByType n type).2.shared = (m.typeFilter type w.shared).2 := by
  unfold filterByType
  rw [hm]
  dsimp only
  rcases m.typeFilter type w.shared with ⟨_ | f, s⟩
  · rfl
  · have hsame : (World.setFilter { w with shared := s } n f).2.shared = s :=
      (Request.frame (q := .setFilter n f) nofun { w with shared := s }).shared nofun nofun
    dsimp only
    generalize World.setFilter { w with shared := s } n f = done at hsame ⊢
    obtain ⟨_ | _, w'⟩ := done <;> exact hsame

section Typed

variable {get : σ → TypeRegistry} {put : TypeRegistry → σ → σ} {x : Entry ε Symbol σ}

omit [DecidableEq ε] in
theorem Entry.putsUp_of_isTyped
    (hm : x.world.engine.tokenManager = some (TypeRegistry.manager get put))
    (hx : x.deed.isTyped = true) :
    x.PutsUp (Filter.Persistent fun s s' => (get s).Grows (get s')) := by
  obtain ⟨d, w⟩ := x
  cases d with
  | ask q =>
    cases q with
    | setFilter => cases hx
    | filterByType n type =>
      intro m hm' f hf
      cases hm.symm.trans hm'
      exact TypeRegistry.persistent_typeFilter hf
    | _ => trivial
  | _ => trivial

omit [DecidableEq ε] in
theorem Entry.teaches_of_isTyped (hget : ∀ r s, get (put r s) = r)
    (hm : x.world.engine.tokenManager = some (TypeRegistry.manager get put))
    (hx : x.deed.isTyped = true) : x.Teaches fun s s' => (get s).Grows (get s') := by
  obtain ⟨d, w⟩ := x
  have hsame : ∀ q : Request ε Symbol σ, q ≠ .reset → (∀ s, q ≠ .replace s) →
      (∀ n type, q ≠ .filterByType n type) → (get w.shared).Grows (get (q.perform w).shared) :=
    fun q hreset hreplace htype =>
      .of_eq (congrArg get ((Request.frame hreset w).shared hreplace htype))
  cases d with
  | ask q =>
    cases q with
    | replace => cases hx
    | reset => exact .refl _
    | filterByType n type =>
      show (get w.shared).Grows (get (w.filterByType n type).2.shared)
      have hput : ((TypeRegistry.manager get put).typeFilter type w.shared).2 =
          put ((get w.shared).typeFilter type).2 w.shared := rfl
      rw [World.shared_filterByType hm, hput, hget]
      exact .of_alike ((get w.shared).alike_typeFilter type).symm
    | _ => refine hsame _ ?_ ?_ ?_ <;> nofun
  | _ => trivial

/-- **In a call that puts up filters for types only**, all filters can be relied on. -/
theorem World.run_typed (hget : ∀ r s, get (put r s) = r) {w w' : World ε Symbol σ} {depth : Nat}
    {r : Routine ε Symbol σ} {answer : Except Failure Unit}
    (hm : w.engine.tokenManager = some (TypeRegistry.manager get put))
    (hphase : w.setup.phase = .unstable)
    (htyped : ∀ x ∈ World.deeds depth r w, x.deed.isTyped = true)
    (hrun : World.run depth r w = some (answer, w')) :
    (∀ x ∈ World.deeds depth r w,
      x.PutsUp (Filter.Persistent fun s s' => (get s).Grows (get s'))) ∧
    (((World.deeds depth r w).map Entry.world ++ [w']).map World.shared).IsChain
      (fun s s' => (get s).Grows (get s')) ∧ w'.setup = w.setup := by
  obtain ⟨m', hcourse, hend⟩ := World.run_course depth r w [] []
  have hmanager : ∀ x ∈ World.deeds depth r w,
      x.world.engine.tokenManager = some (TypeRegistry.manager get put) := fun x hx =>
    (congrArg Setup.tokenManager ((hcourse.sameSetup_of_mem hx).setup hphase)).trans hm
  obtain rfl := hend _ _ hrun
  refine ⟨fun x hx => Entry.putsUp_of_isTyped (hmanager x hx) (htyped x hx), ?_,
    hcourse.sameSetup.setup hphase⟩
  exact hcourse.isChain_shared (fun s => .refl (get s)) fun x hx =>
    Entry.teaches_of_isTyped hget (hmanager x hx) (htyped x hx)

end Typed

end ValueFlow
