import ValueFlow.Graph.Survey
import ValueFlow.Proofs.Graph.Logical

/-!
# The search finds the cycles

The walk of `Survey.explore` keeps a list of open components, the stack. The components that it
has entered and not left form a path, and the argument is about the two of them:

* an older open component reaches every younger one (`older_reaches`);
* every open component reaches an older one on the path, or the one at which the path stands
  (`reaches_path`);
* whatever was left has only visited successors (`explored`), and closed components have closed
  successors only (`closed_successors`).

So when a component is left that reaches nothing older than itself, what was opened since then is
exactly its cycle. `Survey.Inv` collects this, `Survey.Loop` adds what holds between two successors
of one component, and `explore_spec` is the induction. `run_spec` says what a whole search finds.
-/

namespace ValueFlow.Survey

open Relation

variable {φ τ : Type} [Ordered τ] {g : Graph φ τ} {s s' : Survey φ τ} {a b c n m p : NodeId}

/-! ## 1. Marks -/

/-- The number that was given at the visit; zero if there was none. -/
def number (s : Survey φ τ) (n : NodeId) : Nat := (s.graph.mark n).number

/-- The highest number that is known to be reached. -/
def high (s : Survey φ τ) (n : NodeId) : Nat := (s.graph.mark n).high

/-- The components that were visited: first the open ones, then the closed ones. -/
def seen (s : Survey φ τ) : List NodeId := s.stack ++ s.cycles.flatten

theorem mark_setMark {f : Mark → Mark} (hn : s.graph.contains n) :
    (s.setMark n f).graph.mark m = if n = m then f (s.graph.mark m) else s.graph.mark m := by
  unfold setMark
  by_cases h : n = m
  · subst h
    obtain ⟨v, hv⟩ := Graph.exists_node? hn
    rw [if_pos rfl, Graph.mark_eq, Graph.readAt_modify_self hn, Graph.mark_eq]
    unfold Graph.readAt
    rw [hv]
    rfl
  · rw [if_neg h, Graph.mark_eq, Graph.readAt_modify_of_ne h, ← Graph.mark_eq]

theorem unmarked_setMark {f : Mark → Mark} :
    (s.setMark n f).graph.unmarked = s.graph.unmarked := Graph.unmarked_modify_mark

theorem contains_setMark {f : Mark → Mark} :
    (s.setMark n f).graph.contains m = s.graph.contains m := Graph.contains_modify

theorem mem_closed (h : n ∈ s.cycles.flatten) :
    ∃ (i : Nat) (c : List NodeId), s.cycles[i]? = some c ∧ n ∈ c := by
  obtain ⟨c, hc, hn⟩ := List.mem_flatten.mp h
  obtain ⟨i, hi⟩ := List.getElem?_of_mem hc
  exact ⟨i, c, hi, hn⟩

/-! ## 2. The invariant -/

/-- **How components are numbered**: those that were visited, downwards from the number of nodes
and without a gap, and no other. `goal` tells what the walk is bound to stay in. -/
structure Numbered (g : Graph φ τ) (goal : NodeId → Prop) (s : Survey φ τ) : Prop where
  unmarked : s.graph.unmarked = g.unmarked
  nodup : s.seen.Nodup
  mem_seen : ∀ n, n ∈ s.seen ↔ s.number n ≠ 0
  blank : ∀ n, n ∉ s.seen → s.graph.mark n = {}
  numbers : (s.seen.map s.number).Perm (List.range' (s.counter + 1) s.seen.length)
  contains : ∀ n ∈ s.seen, g.contains n
  goal : ∀ n ∈ s.seen, goal n
  count : s.counter + s.seen.length = g.size
  counter_lt : ∀ n ∈ s.seen, s.counter < s.number n

/-- **What holds while the walk stands at the end of `path`.** -/
structure Inv (g : Graph φ τ) (goal : NodeId → Prop) (path : List NodeId) (s : Survey φ τ) :
    Prop extends Numbered g goal s where
  sorted : s.stack.Pairwise fun a b => s.number a < s.number b
  open_component : ∀ n ∈ s.stack, (s.graph.mark n).component = 0
  closed_component : ∀ (i : Nat) (c : List NodeId), s.cycles[i]? = some c →
    ∀ n ∈ c, (s.graph.mark n).component = i + 1
  path_open : ∀ n ∈ path, n ∈ s.stack
  explored : ∀ n ∈ s.seen, n ∉ path → ∀ m ∈ g.logicalSuccessors n, m ∈ s.seen
  closed_successors : ∀ (i : Nat) (c : List NodeId), s.cycles[i]? = some c →
    ∀ n ∈ c, ∀ m ∈ g.logicalSuccessors n,
      ∃ j ≤ i, ∃ c' : List NodeId, s.cycles[j]? = some c' ∧ m ∈ c'
  older_reaches : ∀ a ∈ s.stack, ∀ b ∈ s.stack, s.number b ≤ s.number a → g.Reaches a b
  reaches_path : ∀ b ∈ s.stack, ∃ a ∈ path, s.number b ≤ s.number a ∧ g.Reaches b a
  cycle : ∀ c ∈ s.cycles, c ≠ [] ∧ ∀ a ∈ c, ∀ b, b ∈ c ↔ g.Mutual a b

section

variable {goal : NodeId → Prop} (hs : Numbered g goal s)
include hs

theorem Numbered.contains_graph : s.graph.contains n = g.contains n :=
  Graph.contains_of_unmarked hs.unmarked

theorem Numbered.logicalSuccessors : s.graph.logicalSuccessors n = g.logicalSuccessors n :=
  Graph.logicalSuccessors_of_unmarked hs.unmarked

/-- As long as a component is not visited, a number is left for it. -/
theorem Numbered.counter_pos (hn : g.contains n) (hnum : s.number n = 0) : 0 < s.counter := by
  have hns : n ∉ s.seen := fun h => (hs.mem_seen n).mp h hnum
  have hle : (n :: s.seen).length ≤ g.ids.length := by
    refine (List.nodup_cons.mpr ⟨hns, hs.nodup⟩).length_le_of_subset fun m hm => ?_
    rw [Graph.mem_ids]
    rcases List.mem_cons.mp hm with rfl | hm
    · exact hn
    · exact hs.contains m hm
  have hids : g.ids.length = g.size := by simp [Graph.ids, Graph.size]
  have := hs.count
  rw [List.length_cons, hids] at hle
  omega

/-- The numbering stays as it is where the numbers do. -/
theorem Numbered.transfer (hunmarked : s'.graph.unmarked = s.graph.unmarked)
    (hcounter : s'.counter = s.counter) (hperm : s'.seen.Perm s.seen)
    (hnumber : ∀ m, s'.number m = s.number m)
    (hmark : ∀ m ∉ s.seen, s'.graph.mark m = s.graph.mark m) : Numbered g goal s' where
  unmarked := hunmarked.trans hs.unmarked
  nodup := hperm.nodup_iff.mpr hs.nodup
  mem_seen m := by
    rw [hperm.mem_iff, hnumber]
    exact hs.mem_seen m
  blank m hm := by
    rw [hperm.mem_iff] at hm
    rw [hmark m hm, hs.blank m hm]
  numbers := by
    rw [hcounter, hperm.length_eq, funext hnumber]
    exact (hperm.map _).trans hs.numbers
  contains m hm := hs.contains m (hperm.mem_iff.mp hm)
  goal m hm := hs.goal m (hperm.mem_iff.mp hm)
  count := by
    rw [hcounter, hperm.length_eq]
    exact hs.count
  counter_lt m hm := by
    rw [hcounter, hnumber]
    exact hs.counter_lt m (hperm.mem_iff.mp hm)

end

section

variable {goal : NodeId → Prop} {path : List NodeId} (hs : Inv g goal path s)
include hs

theorem Inv.not_mem_closed (hn : n ∈ s.stack) : n ∉ s.cycles.flatten := fun h =>
  (List.nodup_append.mp hs.nodup).2.2 n hn n h rfl

theorem Inv.closed_step (h : n ∈ s.cycles.flatten) (hm : m ∈ g.logicalSuccessors n) :
    m ∈ s.cycles.flatten := by
  obtain ⟨i, c, hc, hn⟩ := mem_closed h
  obtain ⟨j, _, c', hc', hm'⟩ := hs.closed_successors i c hc n hn m hm
  exact List.mem_flatten.mpr ⟨c', List.mem_of_getElem? hc', hm'⟩

theorem Inv.closed_reaches (h : n ∈ s.cycles.flatten) (hm : g.Reaches n m) :
    m ∈ s.cycles.flatten := by
  induction hm with
  | refl => exact h
  | tail _ hstep ih => exact hs.closed_step ih hstep

/-- What is visited and not assigned to a cycle is open. -/
theorem Inv.mem_stack (hn : n ∈ s.seen) (h : (s.graph.mark n).component = 0) : n ∈ s.stack := by
  rcases List.mem_append.mp hn with h' | h'
  · exact h'
  · obtain ⟨i, c, hc, hm⟩ := mem_closed h'
    rw [hs.closed_component i c hc n hm] at h
    cases h

theorem Inv.mem_closed_of_component (hn : n ∈ s.seen) (h : (s.graph.mark n).component ≠ 0) :
    n ∈ s.cycles.flatten :=
  (List.mem_append.mp hn).resolve_left fun h' => h (hs.open_component n h')

theorem Inv.stack_eq_nil (hp : path = []) : s.stack = [] := by
  rw [List.eq_nil_iff_forall_not_mem]
  intro b hb
  obtain ⟨a, ha, _⟩ := hs.reaches_path b hb
  rw [hp] at ha
  exact List.not_mem_nil ha

end

/-! ## 3. Entering a component -/

theorem graph_enter : (s.enter n).graph = (s.setMark n fun _ =>
    { number := s.counter, high := s.counter, component := 0 }).graph := rfl

theorem mark_enter (hn : s.graph.contains n) : (s.enter n).graph.mark m =
    if n = m then { number := s.counter, high := s.counter, component := 0 }
    else s.graph.mark m := by
  rw [graph_enter]
  exact mark_setMark hn

theorem mark_enter_of_ne (hn : s.graph.contains n) (hm : m ≠ n) :
    (s.enter n).graph.mark m = s.graph.mark m := by
  rw [mark_enter hn, if_neg (Ne.symm hm)]

theorem number_enter (hn : s.graph.contains n) :
    (s.enter n).number m = if n = m then s.counter else s.number m := by
  unfold number
  rw [mark_enter hn]
  split <;> rfl

theorem Numbered.enter {goal : NodeId → Prop} (hs : Numbered g goal s) (hn : g.contains n)
    (hnum : s.number n = 0) (hgoal : goal n) : Numbered g goal (s.enter n) := by
  have hpos := hs.counter_pos hn hnum
  have hcount := hs.count
  have hns : n ∉ s.seen := fun h => (hs.mem_seen n).mp h hnum
  have hseen : (s.enter n).seen = n :: s.seen := rfl
  have hnumber : ∀ m, (s.enter n).number m = if n = m then s.counter else s.number m :=
    fun m => number_enter (hs.contains_graph ▸ hn)
  refine
    { unmarked := by rw [graph_enter, unmarked_setMark, hs.unmarked]
      nodup := List.nodup_cons.mpr ⟨hns, hs.nodup⟩
      mem_seen := fun m => ?_
      blank := fun m hm => ?_
      numbers := ?_
      contains := List.forall_mem_cons.mpr ⟨hn, hs.contains⟩
      goal := List.forall_mem_cons.mpr ⟨hgoal, hs.goal⟩
      count := ?_
      counter_lt := fun m hm => ?_ }
  · rw [hseen, List.mem_cons, hnumber m, hs.mem_seen m]
    split
    · rename_i e
      exact ⟨fun _ => by omega, fun _ => .inl e.symm⟩
    · rename_i hne
      exact ⟨fun h => h.resolve_left (Ne.symm hne), .inr⟩
  · rw [hseen, List.mem_cons, not_or] at hm
    rw [mark_enter_of_ne (hs.contains_graph ▸ hn) hm.1, hs.blank m hm.2]
  · -- the new number is the one right below the others
    have hold : s.seen.map (s.enter n).number = s.seen.map s.number :=
      List.map_congr_left fun m hm => by
        have hne : n ≠ m := fun e => hns (e ▸ hm)
        rw [hnumber m, if_neg hne]
    have hcounter : (s.enter n).counter + 1 = s.counter := by
      show s.counter - 1 + 1 = s.counter
      omega
    rw [hseen, List.map_cons, hold, hnumber n, if_pos rfl, List.length_cons, hcounter,
      List.range'_succ]
    exact hs.numbers.cons _
  · rw [hseen, List.length_cons]
    show s.counter - 1 + (s.seen.length + 1) = g.size
    omega
  · show s.counter - 1 < _
    rw [hnumber m]
    split
    · omega
    · rename_i hne
      have := hs.counter_lt m ((List.mem_cons.mp hm).resolve_left (Ne.symm hne))
      omega

/-- A component may be entered that the whole path leads to. -/
theorem Inv.enter {goal : NodeId → Prop} {path : List NodeId} (hs : Inv g goal path s)
    (hn : g.contains n) (hnum : s.number n = 0) (hgoal : goal n)
    (hpath : ∀ a ∈ path, g.Reaches a n) : Inv g goal (n :: path) (s.enter n) := by
  have hcn : s.graph.contains n := hs.contains_graph ▸ hn
  have hns : n ∉ s.seen := fun h => (hs.mem_seen n).mp h hnum
  have hnumber_n : (s.enter n).number n = s.counter := (number_enter hcn).trans (if_pos rfl)
  have hne : ∀ m ∈ s.seen, m ≠ n := fun m hm e => hns (e ▸ hm)
  have hopen : ∀ m ∈ s.stack, m ∈ s.seen := fun m hm => List.mem_append_left _ hm
  have hnumber : ∀ m ∈ s.stack, (s.enter n).number m = s.number m := fun m hm =>
    (number_enter hcn).trans (if_neg (Ne.symm (hne m (hopen m hm))))
  refine
    { toNumbered := hs.toNumbered.enter hn hnum hgoal
      sorted := List.pairwise_cons.mpr ⟨fun b hb => ?_, ?_⟩
      open_component := fun m hm => ?_
      closed_component := fun i c hc m hm => ?_
      path_open := fun m hm => ?_
      explored := fun m hm hmp k hk => ?_
      closed_successors := hs.closed_successors
      older_reaches := fun a ha b hb hab => ?_
      reaches_path := fun b hb => ?_
      cycle := hs.cycle }
  · rw [hnumber_n, hnumber b hb]
    exact hs.counter_lt b (hopen b hb)
  · refine hs.sorted.imp_of_mem fun {a b} ha hb hab => ?_
    rw [hnumber a ha, hnumber b hb]
    exact hab
  · rcases List.mem_cons.mp hm with rfl | hm
    · rw [mark_enter hcn, if_pos rfl]
    · rw [mark_enter_of_ne hcn (hne m (hopen m hm))]
      exact hs.open_component m hm
  · have hms : m ∈ s.seen :=
      List.mem_append_right _ (List.mem_flatten.mpr ⟨c, List.mem_of_getElem? hc, hm⟩)
    rw [mark_enter_of_ne hcn (hne m hms)]
    exact hs.closed_component i c hc m hm
  · rcases List.mem_cons.mp hm with rfl | hm
    · exact List.mem_cons_self
    · exact List.mem_cons_of_mem _ (hs.path_open m hm)
  · rw [List.mem_cons, not_or] at hmp
    have hm : m ∈ s.seen := (List.mem_cons.mp hm).resolve_left hmp.1
    exact List.mem_cons_of_mem _ (hs.explored m hm hmp.2 k hk)
  · rcases List.mem_cons.mp ha with rfl | ha <;> rcases List.mem_cons.mp hb with rfl | hb
    · exact ReflTransGen.refl
    · rw [hnumber_n, hnumber b hb] at hab
      have := hs.counter_lt b (hopen b hb)
      omega
    · -- an open component reaches the path, and the path reaches what is entered
      obtain ⟨a', ha', _, h⟩ := hs.reaches_path a ha
      exact ReflTransGen.trans h (hpath a' ha')
    · rw [hnumber a ha, hnumber b hb] at hab
      exact hs.older_reaches a ha b hb hab
  · rcases List.mem_cons.mp hb with rfl | hb
    · exact ⟨b, List.mem_cons_self, Nat.le_refl _, ReflTransGen.refl⟩
    · obtain ⟨a, ha, hle, h⟩ := hs.reaches_path b hb
      refine ⟨a, List.mem_cons_of_mem _ ha, ?_, h⟩
      rw [hnumber b hb, hnumber a (hs.path_open a ha)]
      exact hle

/-! ## 4. Noting what is reached -/

theorem number_eq : s.number n = s.graph.readAt n (fun v => v.mark.number) 0 := by
  unfold number Graph.mark Graph.readAt
  cases s.graph.node? n <;> rfl

theorem number_setMark {f : Mark → Mark} (hf : ∀ k, (f k).number = k.number) :
    (s.setMark n f).number m = s.number m := by
  rw [number_eq, number_eq]
  exact Graph.readAt_modify fun v => hf v.mark

theorem mark_setMark_of_ne {f : Mark → Mark} (h : n ≠ m) :
    (s.setMark n f).graph.mark m = s.graph.mark m := by
  rw [Graph.mark_eq, Graph.mark_eq]
  exact Graph.readAt_modify_of_ne h

theorem number_raise {h : Nat} : (s.raise n h).number m = s.number m := number_setMark fun _ => rfl

theorem mark_raise_of_ne {h : Nat} (hne : n ≠ m) : (s.raise n h).graph.mark m = s.graph.mark m :=
  mark_setMark_of_ne hne

theorem high_raise_self {h : Nat} (hn : s.graph.contains n) :
    (s.raise n h).high n = max (s.high n) h := by
  unfold high raise
  rw [mark_setMark hn, if_pos rfl]

theorem component_raise {h : Nat} :
    ((s.raise n h).graph.mark m).component = (s.graph.mark m).component := by
  by_cases hne : n = m
  · subst hne
    by_cases hn : s.graph.contains n
    · unfold raise
      rw [mark_setMark hn, if_pos rfl]
    · rw [Graph.mark_eq, Graph.readAt_of_not_contains, Graph.mark_eq,
        Graph.readAt_of_not_contains hn]
      unfold raise
      rw [contains_setMark]
      exact hn
  · rw [mark_raise_of_ne hne]

theorem Inv.raise {goal : NodeId → Prop} {path : List NodeId} (hs : Inv g goal path s)
    (hn : n ∈ s.seen) (h : Nat) : Inv g goal path (s.raise n h) := by
  have hnumber : ∀ m, (s.raise n h).number m = s.number m := fun m => number_raise
  refine
    { toNumbered := hs.toNumbered.transfer unmarked_setMark rfl (List.Perm.refl _) hnumber
        fun m hm => mark_raise_of_ne fun e => hm (e ▸ hn)
      sorted := ?_
      open_component := fun m hm => ?_
      closed_component := fun i c hc m hm => ?_
      path_open := hs.path_open
      explored := hs.explored
      closed_successors := hs.closed_successors
      older_reaches := fun a ha b hb hab => ?_
      reaches_path := fun b hb => ?_
      cycle := hs.cycle }
  · simp only [hnumber]
    exact hs.sorted
  · rw [component_raise]
    exact hs.open_component m hm
  · rw [component_raise]
    exact hs.closed_component i c hc m hm
  · rw [hnumber, hnumber] at hab
    exact hs.older_reaches a ha b hb hab
  · simp only [hnumber]
    exact hs.reaches_path b hb

/-! ## 5. Closing a cycle -/

theorem takeWhile_ne_append {α : Type} [DecidableEq α] {x : α} {xs ys : List α} (h : x ∉ xs) :
    (xs ++ x :: ys).takeWhile (· ≠ x) = xs := by
  induction xs with
  | nil => simp
  | cons y xs ih =>
    rw [List.mem_cons, not_or] at h
    rw [List.cons_append, List.takeWhile_cons_of_pos (by simpa using Ne.symm h.1), ih h.2]

theorem dropWhile_ne_append {α : Type} [DecidableEq α] {x : α} {xs ys : List α} (h : x ∉ xs) :
    (xs ++ x :: ys).dropWhile (· ≠ x) = x :: ys := by
  induction xs with
  | nil => simp
  | cons y xs ih =>
    rw [List.mem_cons, not_or] at h
    rw [List.cons_append, List.dropWhile_cons_of_pos (by simpa using Ne.symm h.1), ih h.2]

/-- The walk after all of `cycle` were assigned the component number `k`. -/
def assign (s : Survey φ τ) (cycle : List NodeId) (k : Nat) : Survey φ τ :=
  cycle.foldl (fun s m => s.setMark m fun v => { v with component := k }) s

theorem assign_spec (s : Survey φ τ) (cycle : List NodeId) (k : Nat) :
    (s.assign cycle k).counter = s.counter ∧ (s.assign cycle k).graph.unmarked = s.graph.unmarked ∧
      (∀ m, (s.assign cycle k).number m = s.number m) ∧
      (∀ m, m ∉ cycle → (s.assign cycle k).graph.mark m = s.graph.mark m) ∧
      ∀ m ∈ cycle, s.graph.contains m → ((s.assign cycle k).graph.mark m).component = k ∧
        ((s.assign cycle k).graph.mark m).high = (s.graph.mark m).high := by
  induction cycle generalizing s with
  | nil => exact ⟨rfl, rfl, fun _ => rfl, fun _ _ => rfl, fun _ h => absurd h List.not_mem_nil⟩
  | cons x xs ih =>
    obtain ⟨h₁, h₂, h₃, h₄, h₅⟩ := ih (s.setMark x fun v => { v with component := k })
    refine ⟨h₁, h₂.trans unmarked_setMark, fun m => (h₃ m).trans (number_setMark fun _ => rfl),
      fun m hm => ?_, fun m hm hc => ?_⟩
    · rw [List.mem_cons, not_or] at hm
      exact (h₄ m hm.2).trans (mark_setMark_of_ne (Ne.symm hm.1))
    · by_cases hxs : m ∈ xs
      · obtain ⟨h₆, h₇⟩ := h₅ m hxs (by rw [contains_setMark]; exact hc)
        refine ⟨h₆, h₇.trans ?_⟩
        by_cases hx : x = m
        · rw [mark_setMark (hx ▸ hc), if_pos hx]
        · rw [mark_setMark_of_ne hx]
      · have hx : m = x := (List.mem_cons.mp hm).resolve_right hxs
        subst hx
        have hm : (s.assign (m :: xs) k).graph.mark m =
            { s.graph.mark m with component := k } := by
          refine (h₄ m hxs).trans ?_
          rw [mark_setMark hc, if_pos rfl]
        rw [hm]
        exact ⟨rfl, rfl⟩

theorem close_eq {new rest : List NodeId} (hstack : s.stack = new ++ n :: rest) (hn : n ∉ new) :
    s.close n = { s.assign (new ++ [n]) (s.cycles.length + 1) with
      stack := rest, cycles := s.cycles ++ [new ++ [n]] } := by
  have hs : ∀ (cycle : List NodeId) (s : Survey φ τ) (k : Nat), (s.assign cycle k).stack = s.stack ∧
      (s.assign cycle k).cycles = s.cycles := by
    intro cycle
    induction cycle with
    | nil => exact fun _ _ => ⟨rfl, rfl⟩
    | cons x xs ih => exact fun s k => ih _ k
  have hc : s.stack.takeWhile (· ≠ n) ++ (s.stack.dropWhile (· ≠ n)).take 1 = new ++ [n] := by
    rw [hstack, takeWhile_ne_append hn, dropWhile_ne_append hn]
    rfl
  unfold close
  simp only [hc]
  show ({ s.assign (new ++ [n]) (s.cycles.length + 1) with
      stack := ((s.assign (new ++ [n]) (s.cycles.length + 1)).stack.dropWhile (· ≠ n)).drop 1,
      cycles := (s.assign (new ++ [n]) (s.cycles.length + 1)).cycles ++ [new ++ [n]] } :
    Survey φ τ) = _
  rw [(hs _ s _).1, (hs _ s _).2, hstack, dropWhile_ne_append hn]
  rfl

/-- The walk `s'` is `s` after `cycle` was closed, with `rest` still open. -/
structure Closes (cycle rest : List NodeId) (s s' : Survey φ τ) : Prop where
  stack : s'.stack = rest
  cycles : s'.cycles = s.cycles ++ [cycle]
  counter : s'.counter = s.counter
  unmarked : s'.graph.unmarked = s.graph.unmarked
  number : ∀ m, s'.number m = s.number m
  mark : ∀ m ∉ cycle, s'.graph.mark m = s.graph.mark m
  assigned : ∀ m ∈ cycle, s.graph.contains m →
    (s'.graph.mark m).component = s.cycles.length + 1 ∧
      (s'.graph.mark m).high = (s.graph.mark m).high

theorem closes_close {new rest : List NodeId} (hstack : s.stack = new ++ n :: rest)
    (hn : n ∉ new) : Closes (new ++ [n]) rest s (s.close n) := by
  obtain ⟨hcounter, hunmarked, hnumber, hmark, hassigned⟩ :=
    assign_spec s (new ++ [n]) (s.cycles.length + 1)
  rw [close_eq hstack hn]
  exact ⟨rfl, rfl, hcounter, hunmarked, hnumber, hmark, hassigned⟩

section Closes

variable {cycle rest : List NodeId} (h : Closes cycle rest s s')
include h

/-- Closed components are still visited ones. -/
theorem Closes.perm (hst : s.stack = cycle ++ rest) : s'.seen.Perm s.seen := by
  have e : s.seen = cycle ++ (rest ++ s.cycles.flatten) := by
    unfold seen
    rw [hst, List.append_assoc]
  have e' : s'.seen = (rest ++ s.cycles.flatten) ++ cycle := by
    unfold seen
    rw [h.stack, h.cycles]
    simp
  rw [e, e']
  exact List.perm_append_comm

theorem Closes.getElem?_cycles {i : Nat} {c : List NodeId} :
    s'.cycles[i]? = some c ↔ s.cycles[i]? = some c ∨ i = s.cycles.length ∧ c = cycle := by
  rw [h.cycles, List.getElem?_append]
  split
  · rename_i hlt
    exact ⟨.inl, fun hc => hc.resolve_right fun e => Nat.ne_of_lt hlt e.1⟩
  · rename_i hge
    rw [List.getElem?_eq_none (Nat.le_of_not_lt hge), List.getElem?_singleton]
    constructor
    · intro hc
      split at hc
      · exact .inr ⟨by omega, (Option.some.inj hc).symm⟩
      · cases hc
    · intro hc
      obtain ⟨rfl, rfl⟩ := hc.resolve_left nofun
      rw [if_pos (Nat.sub_self _)]

end Closes

/-! ## 6. Following the successors of a component -/

/-- Look at one successor `c` of the component `n`. -/
def follow (depth : Nat) (n : NodeId) (s : Survey φ τ) (c : NodeId) : Survey φ τ :=
  if s.number c = 0 then (explore depth s c).raise n ((explore depth s c).high c)
  else if (s.graph.mark c).component = 0 then s.raise n (s.number c)
  else s

theorem explore_succ (depth : Nat) : explore (depth + 1) s n =
    (((s.enter n).graph.logicalSuccessors n).foldl (follow depth n) (s.enter n)).leave n := rfl

/-- What a walk from `n` does to the walk that it is part of. -/
structure Explored (g : Graph φ τ) (goal : NodeId → Prop) (path : List NodeId) (n : NodeId)
    (s s' : Survey φ τ) : Prop where
  inv : Inv g goal path s'
  old : ∀ m ∈ s.seen, s'.graph.mark m = s.graph.mark m
  seen : n ∈ s'.seen
  counter_lt : s'.counter < s.counter
  new : ∃ new, s'.stack = new ++ s.stack ∧
    ∀ x ∈ new, ∀ y ∈ s.stack, y ∈ g.logicalSuccessors x → s'.number y ≤ s'.high n
  high : s'.high n ≤ s.counter ∨ ∃ y ∈ s.stack, s'.number y = s'.high n ∧ g.Reaches n y

/-- **What holds between two successors** of the component `p`, which was entered from `s₀`; `done`
are the successors that were looked at. -/
structure Loop (g : Graph φ τ) (goal : NodeId → Prop) (path : List NodeId) (p : NodeId)
    (s₀ s : Survey φ τ) (done : List NodeId) : Prop where
  inv : Inv g goal (p :: path) s
  entered : p ∉ s₀.seen
  old : ∀ m ∈ s₀.seen, s.graph.mark m = s₀.graph.mark m
  number : s.number p = s₀.counter
  counter_lt : s.counter < s₀.counter
  new : ∃ new, s.stack = new ++ p :: s₀.stack ∧
    ∀ x ∈ new, ∀ y ∈ s₀.stack, y ∈ g.logicalSuccessors x → s.number y ≤ s.high p
  high_ge : s.number p ≤ s.high p
  high_reached : ∃ y ∈ s.stack, s.number y = s.high p ∧ g.Reaches p y
  handled : ∀ c ∈ done, c ∈ s.seen
  cross : ∀ y ∈ s₀.stack, y ∈ done → s.number y ≤ s.high p

section Loop

variable {goal : NodeId → Prop} {path done : List NodeId} {s₀ : Survey φ τ}

theorem number_congr (h : s'.graph.mark m = s.graph.mark m) : s'.number m = s.number m := by
  unfold Survey.number
  rw [h]

theorem seen_mono {path' : List NodeId} (hs : Inv g goal path s) (hs' : Inv g goal path' s')
    (hold : ∀ m ∈ s.seen, s'.graph.mark m = s.graph.mark m) (hm : m ∈ s.seen) : m ∈ s'.seen := by
  rw [hs'.mem_seen, number_congr (hold m hm), ← hs.mem_seen]
  exact hm

theorem Loop.mem_stack_of_old (h : Loop g goal path p s₀ s done) (hm : m ∈ s₀.stack) :
    m ∈ s.stack := by
  obtain ⟨new, hst, _⟩ := h.new
  rw [hst]
  exact List.mem_append_right _ (List.mem_cons_of_mem _ hm)

theorem Loop.mem_stack_self (h : Loop g goal path p s₀ s done) : p ∈ s.stack := by
  obtain ⟨new, hst, _⟩ := h.new
  rw [hst]
  exact List.mem_append_right _ List.mem_cons_self

/-- What was visited before `p` has a larger number. -/
theorem Loop.number_lt_old (h : Loop g goal path p s₀ s done) (h₀ : Inv g goal path s₀)
    (hm : m ∈ s₀.seen) : s.number p < s.number m := by
  rw [h.number, number_congr (h.old m hm)]
  exact h₀.counter_lt m hm

/-- The path leads to every successor of its end. -/
theorem Loop.path_reaches (h : Loop g goal path p s₀ s done) (h₀ : Inv g goal path s₀)
    (hc : c ∈ g.logicalSuccessors p) : ∀ a ∈ p :: path, g.Reaches a c := by
  intro a ha
  rcases List.mem_cons.mp ha with rfl | ha
  · exact ReflTransGen.single hc
  · have ha₀ := h₀.path_open a ha
    have hlt := h.number_lt_old h₀ (List.mem_append_left _ ha₀)
    have hr := h.inv.older_reaches a (h.mem_stack_of_old ha₀) p h.mem_stack_self
      (Nat.le_of_lt hlt)
    exact ReflTransGen.tail hr hc

/-- The successor was not visited yet: the walk goes there. -/
theorem Loop.visit_new (h : Loop g goal path p s₀ s done) (h₀ : Inv g goal path s₀)
    (hc : c ∈ g.logicalSuccessors p) (hnum : s.number c = 0)
    (he : Explored g goal (p :: path) c s s') :
    Loop g goal path p s₀ (s'.raise p (s'.high c)) (done ++ [c]) := by
  have hps : p ∈ s.seen := List.mem_append_left _ h.mem_stack_self
  have hps' : p ∈ s'.seen := seen_mono h.inv he.inv he.old hps
  have hcp : s'.graph.contains p := he.inv.contains_graph ▸ he.inv.contains p hps'
  have hold : ∀ m ∈ s₀.seen, m ∈ s.seen := fun m hm => seen_mono h₀ h.inv h.old hm
  have hstack : ∀ m ∈ s.stack, s'.number m = s.number m := fun m hm =>
    number_congr (he.old m (List.mem_append_left _ hm))
  have hhigh : (s'.raise p (s'.high c)).high p = max (s.high p) (s'.high c) := by
    rw [high_raise_self hcp]
    unfold Survey.high
    rw [he.old p hps]
  obtain ⟨new, hst, hx⟩ := h.new
  obtain ⟨new', hst', hx'⟩ := he.new
  refine
    { inv := he.inv.raise hps' _
      entered := h.entered
      old := fun m hm => ?_
      number := ?_
      counter_lt := Nat.lt_trans he.counter_lt h.counter_lt
      new := ⟨new' ++ new, ?_, fun x hxm y hy hyx => ?_⟩
      high_ge := ?_
      high_reached := ?_
      handled := fun k hk => ?_
      cross := fun y hy hyd => ?_ }
  · have hne : p ≠ m := fun e => h.entered (e ▸ hm)
    rw [mark_raise_of_ne hne, he.old m (hold m hm), h.old m hm]
  · rw [number_raise, number_congr (he.old p hps), h.number]
  · show s'.stack = _
    rw [hst', hst, List.append_assoc]
  · rw [number_raise, hhigh]
    rcases List.mem_append.mp hxm with hxm | hxm
    · exact Nat.le_trans (hx' x hxm y (h.mem_stack_of_old hy) hyx) (Nat.le_max_right _ _)
    · rw [hstack y (h.mem_stack_of_old hy)]
      exact Nat.le_trans (hx x hxm y hy hyx) (Nat.le_max_left _ _)
  · rw [number_raise, hhigh, hstack p h.mem_stack_self]
    exact Nat.le_trans h.high_ge (Nat.le_max_left _ _)
  · rw [hhigh]
    have hmem : ∀ y ∈ s.stack, y ∈ (s'.raise p (s'.high c)).stack := fun y hy => by
      show y ∈ s'.stack
      rw [hst']
      exact List.mem_append_right _ hy
    by_cases hle : s'.high c ≤ s.high p
    · obtain ⟨y, hy, hny, hr⟩ := h.high_reached
      refine ⟨y, hmem y hy, ?_, hr⟩
      rw [number_raise, hstack y hy, Nat.max_eq_left hle]
      exact hny
    · rcases he.high with hlow | ⟨y, hy, hny, hr⟩
      · have := h.inv.counter_lt p hps
        have := h.high_ge
        omega
      · refine ⟨y, hmem y hy, ?_, ReflTransGen.head hc hr⟩
        rw [number_raise, hny, Nat.max_eq_right (by omega)]
  · show k ∈ s'.seen
    rcases List.mem_append.mp hk with hk | hk
    · exact seen_mono h.inv he.inv he.old (h.handled k hk)
    · rw [List.mem_singleton.mp hk]
      exact he.seen
  · rw [number_raise, hhigh, hstack y (h.mem_stack_of_old hy)]
    rcases List.mem_append.mp hyd with hyd | hyd
    · exact Nat.le_trans (h.cross y hy hyd) (Nat.le_max_left _ _)
    · rw [List.mem_singleton.mp hyd] at hy
      exact absurd hnum ((h.inv.mem_seen c).mp (hold c (List.mem_append_left _ hy)))

/-- The successor is open: its number is noted. -/
theorem Loop.note_open (h : Loop g goal path p s₀ s done) (hc : c ∈ g.logicalSuccessors p)
    (hopen : c ∈ s.stack) : Loop g goal path p s₀ (s.raise p (s.number c)) (done ++ [c]) := by
  have hps : p ∈ s.seen := List.mem_append_left _ h.mem_stack_self
  have hcp : s.graph.contains p := h.inv.contains_graph ▸ h.inv.contains p hps
  have hhigh : (s.raise p (s.number c)).high p = max (s.high p) (s.number c) :=
    high_raise_self hcp
  obtain ⟨new, hst, hx⟩ := h.new
  refine
    { inv := h.inv.raise hps _
      entered := h.entered
      old := fun m hm => ?_
      number := number_raise.trans h.number
      counter_lt := h.counter_lt
      new := ⟨new, hst, fun x hxm y hy hyx => ?_⟩
      high_ge := ?_
      high_reached := ?_
      handled := fun k hk => ?_
      cross := fun y hy hyd => ?_ }
  · have hne : p ≠ m := fun e => h.entered (e ▸ hm)
    rw [mark_raise_of_ne hne, h.old m hm]
  · rw [number_raise, hhigh]
    exact Nat.le_trans (hx x hxm y hy hyx) (Nat.le_max_left _ _)
  · rw [number_raise, hhigh]
    exact Nat.le_trans h.high_ge (Nat.le_max_left _ _)
  · rw [hhigh]
    by_cases hle : s.number c ≤ s.high p
    · obtain ⟨y, hy, hny, hr⟩ := h.high_reached
      refine ⟨y, hy, ?_, hr⟩
      rw [number_raise, hny, Nat.max_eq_left hle]
    · refine ⟨c, hopen, ?_, ReflTransGen.single hc⟩
      rw [number_raise, Nat.max_eq_right (by omega)]
  · rcases List.mem_append.mp hk with hk | hk
    · exact h.handled k hk
    · rw [List.mem_singleton.mp hk]
      exact List.mem_append_left _ hopen
  · rw [number_raise, hhigh]
    rcases List.mem_append.mp hyd with hyd | hyd
    · exact Nat.le_trans (h.cross y hy hyd) (Nat.le_max_left _ _)
    · rw [List.mem_singleton.mp hyd]
      exact Nat.le_max_right _ _

/-- The successor is closed: nothing happens. -/
theorem Loop.skip_closed (h : Loop g goal path p s₀ s done) (hcl : c ∈ s.cycles.flatten) :
    Loop g goal path p s₀ s (done ++ [c]) := by
  refine { h with handled := fun k hk => ?_, cross := fun y hy hyd => ?_ }
  · rcases List.mem_append.mp hk with hk | hk
    · exact h.handled k hk
    · rw [List.mem_singleton.mp hk]
      exact List.mem_append_right _ hcl
  · rcases List.mem_append.mp hyd with hyd | hyd
    · exact h.cross y hy hyd
    · rw [List.mem_singleton.mp hyd] at hy
      exact absurd hcl (h.inv.not_mem_closed (h.mem_stack_of_old hy))

/-- **One successor**: the walk goes there, or its number is noted, or it is passed over. -/
theorem Loop.follow (depth : Nat) (h : Loop g goal path p s₀ s done) (h₀ : Inv g goal path s₀)
    (hc : c ∈ g.logicalSuccessors p)
    (hexplored : s.number c = 0 → Explored g goal (p :: path) c s (explore depth s c)) :
    Loop g goal path p s₀ (follow depth p s c) (done ++ [c]) := by
  unfold Survey.follow
  by_cases hnum : s.number c = 0
  · rw [if_pos hnum]
    exact h.visit_new h₀ hc hnum (hexplored hnum)
  · rw [if_neg hnum]
    have hcs : c ∈ s.seen := (h.inv.mem_seen c).mpr hnum
    by_cases hcomp : (s.graph.mark c).component = 0
    · rw [if_pos hcomp]
      exact h.note_open hc (h.inv.mem_stack hcs hcomp)
    · rw [if_neg hcomp]
      exact h.skip_closed (h.inv.mem_closed_of_component hcs hcomp)

/-! ## 7. Leaving a component -/

theorem Loop.younger_older (h : Loop g goal path p s₀ s done) {new : List NodeId}
    (hst : s.stack = new ++ p :: s₀.stack) :
    (∀ x ∈ new, s.number x < s.number p) ∧ ∀ y ∈ s₀.stack, s.number p < s.number y := by
  have hsorted := h.inv.sorted
  rw [hst, List.pairwise_append, List.pairwise_cons] at hsorted
  exact ⟨fun x hx => hsorted.2.2 x hx p List.mem_cons_self, hsorted.2.1.1⟩

theorem Loop.not_mem_cycle (h : Loop g goal path p s₀ s done) (h₀ : Inv g goal path s₀)
    {new : List NodeId} (hst : s.stack = new ++ p :: s₀.stack) (hm : m ∈ s₀.seen) :
    m ∉ new ++ [p] := by
  have hlt := h.number_lt_old h₀ hm
  intro hn
  rcases List.mem_append.mp hn with hn | hn
  · exact Nat.lt_asymm hlt ((h.younger_older hst).1 m hn)
  · rw [List.mem_singleton.mp hn] at hlt
    exact Nat.lt_irrefl _ hlt

/-- Once the successors of `p` are done, `p` is explored like all that is off the path. -/
theorem Loop.explored_done (h : Loop g goal path p s₀ s done)
    (hdone : ∀ m ∈ g.logicalSuccessors p, m ∈ done) (hn : n ∈ s.seen) (hpath : n ∉ path)
    (hm : m ∈ g.logicalSuccessors n) : m ∈ s.seen := by
  by_cases e : n = p
  · exact h.handled m (hdone m (e ▸ hm))
  · refine h.inv.explored n hn (fun hmem => ?_) m hm
    exact (List.mem_cons.mp hmem).elim e hpath

/-- Nothing older is reached from what was opened since `p`, once `p` reaches nothing older. -/
theorem Loop.cycle_successors (h : Loop g goal path p s₀ s done) (h₀ : Inv g goal path s₀)
    (hdone : ∀ m ∈ g.logicalSuccessors p, m ∈ done) (hroot : s.high p = s.number p)
    {new : List NodeId} (hst : s.stack = new ++ p :: s₀.stack)
    (hx : ∀ x ∈ new, ∀ y ∈ s₀.stack, y ∈ g.logicalSuccessors x → s.number y ≤ s.high p)
    (hn : n ∈ new ++ [p]) (hm : m ∈ g.logicalSuccessors n) :
    m ∈ new ++ [p] ∨ m ∈ s.cycles.flatten := by
  obtain ⟨hyoung, hold⟩ := h.younger_older hst
  have hmem : ∀ y ∈ s₀.stack, y ∈ g.logicalSuccessors n → False := fun y hy hyn => by
    have hlt := hold y hy
    rcases List.mem_append.mp hn with hn | hn
    · have := hx n hn y hy hyn
      omega
    · rw [List.mem_singleton.mp hn] at hyn
      have := h.cross y hy (hdone y hyn)
      omega
  have hms : m ∈ s.seen := by
    rcases List.mem_append.mp hn with hnew | hp
    · have hlt := hyoung n hnew
      have hns : n ∈ s.stack := by rw [hst]; exact List.mem_append_left _ hnew
      refine h.inv.explored n (List.mem_append_left _ hns) (fun hp => ?_) m hm
      rcases List.mem_cons.mp hp with rfl | hp
      · exact Nat.lt_irrefl _ hlt
      · exact Nat.lt_asymm hlt (hold n (h₀.path_open n hp))
    · rw [List.mem_singleton.mp hp] at hm
      exact h.handled m (hdone m hm)
  rcases List.mem_append.mp hms with hms | hms
  · rw [hst] at hms
    rcases List.mem_append.mp hms with hms | hms
    · exact .inl (List.mem_append_left _ hms)
    · rcases List.mem_cons.mp hms with rfl | hms
      · exact .inl (List.mem_append_right _ (List.mem_singleton_self _))
      · exact absurd hm fun hm => hmem m hms hm
  · exact .inr hms

/-- **What was opened since `p` is the cycle of `p`**, once `p` reaches nothing older. -/
theorem Loop.cycle_spec (h : Loop g goal path p s₀ s done) (h₀ : Inv g goal path s₀)
    (hdone : ∀ m ∈ g.logicalSuccessors p, m ∈ done) (hroot : s.high p = s.number p)
    {new : List NodeId} (hst : s.stack = new ++ p :: s₀.stack)
    (hx : ∀ x ∈ new, ∀ y ∈ s₀.stack, y ∈ g.logicalSuccessors x → s.number y ≤ s.high p) :
    ∀ a ∈ new ++ [p], ∀ b, b ∈ new ++ [p] ↔ g.Mutual a b := by
  obtain ⟨hyoung, hold⟩ := h.younger_older hst
  have hstack : ∀ x ∈ new ++ [p], x ∈ s.stack ∧ s.number x ≤ s.number p := fun x hx => by
    rw [hst]
    rcases List.mem_append.mp hx with hx | hx
    · exact ⟨List.mem_append_left _ hx, Nat.le_of_lt (hyoung x hx)⟩
    · rw [List.mem_singleton.mp hx]
      exact ⟨List.mem_append_right _ List.mem_cons_self, Nat.le_refl _⟩
  have hclosed : ∀ {x y}, g.Reaches x y → x ∈ new ++ [p] →
      y ∈ new ++ [p] ∨ y ∈ s.cycles.flatten := fun {x y} hr hxn => by
    induction hr with
    | refl => exact .inl hxn
    | tail _ hstep ih =>
      rcases ih with ih | ih
      · exact h.cycle_successors h₀ hdone hroot hst hx ih hstep
      · exact .inr (h.inv.closed_step ih hstep)
  have hmutual : ∀ x ∈ new ++ [p], g.Mutual p x := fun x hxn => by
    obtain ⟨hxs, hle⟩ := hstack x hxn
    refine ⟨h.inv.older_reaches p h.mem_stack_self x hxs hle, ?_⟩
    obtain ⟨a, ha, _, hr⟩ := h.inv.reaches_path x hxs
    rcases List.mem_cons.mp ha with rfl | ha
    · exact hr
    · -- an older component of the path is not among what `x` reaches
      have ha₀ := h₀.path_open a ha
      rcases hclosed hr hxn with han | han
      · exact absurd (hstack a han).2 (Nat.not_le_of_lt (hold a ha₀))
      · exact absurd han (h.inv.not_mem_closed (h.mem_stack_of_old ha₀))
  intro a ha b
  refine ⟨fun hb => (hmutual a ha).symm.trans (hmutual b hb), fun hab => ?_⟩
  refine (hclosed hab.1 ha).resolve_right fun hb => ?_
  exact h.inv.not_mem_closed (hstack a ha).1 (h.inv.closed_reaches hb hab.2)

/-- The walk goes on at the end of `path` when the cycle of `p` is closed. -/
theorem Loop.inv_close (h : Loop g goal path p s₀ s done) (h₀ : Inv g goal path s₀)
    (hdone : ∀ m ∈ g.logicalSuccessors p, m ∈ done) (hroot : s.high p = s.number p)
    {new : List NodeId} (hst : s.stack = new ++ p :: s₀.stack)
    (hx : ∀ x ∈ new, ∀ y ∈ s₀.stack, y ∈ g.logicalSuccessors x → s.number y ≤ s.high p)
    (hcl : Closes (new ++ [p]) s₀.stack s s') : Inv g goal path s' := by
  obtain ⟨hyoung, hold⟩ := h.younger_older hst
  have hsplit : s.stack = (new ++ [p]) ++ s₀.stack := by rw [hst]; simp
  have hperm := hcl.perm hsplit
  have hstack : ∀ x ∈ new ++ [p], x ∈ s.stack := fun x hx => by
    rw [hsplit]
    exact List.mem_append_left _ hx
  have hnotold : ∀ m ∈ s₀.stack, m ∉ new ++ [p] := fun m hm =>
    h.not_mem_cycle h₀ hst (List.mem_append_left _ hm)
  refine
    { toNumbered := h.inv.toNumbered.transfer hcl.unmarked hcl.counter hperm hcl.number
        fun m hm => hcl.mark m fun hmc => hm (List.mem_append_left _ (hstack m hmc))
      sorted := ?_
      open_component := fun m hm => ?_
      closed_component := fun i c hc m hm => ?_
      path_open := fun m hm => ?_
      explored := fun m hm hmp k hk => ?_
      closed_successors := fun i c hc m hm k hk => ?_
      older_reaches := fun a ha b hb hab => ?_
      reaches_path := fun b hb => ?_
      cycle := fun c hc => ?_ }
  · simp only [hcl.number, hcl.stack]
    have hsorted := h.inv.sorted
    rw [hsplit, List.pairwise_append] at hsorted
    exact hsorted.2.1
  · rw [hcl.stack] at hm
    rw [hcl.mark m (hnotold m hm)]
    exact h.inv.open_component m (h.mem_stack_of_old hm)
  · rcases hcl.getElem?_cycles.mp hc with hc | ⟨rfl, rfl⟩
    · have hmf : m ∈ s.cycles.flatten := List.mem_flatten.mpr ⟨c, List.mem_of_getElem? hc, hm⟩
      rw [hcl.mark m fun hn => h.inv.not_mem_closed (hstack m hn) hmf]
      exact h.inv.closed_component i c hc m hm
    · have hmc := h.inv.contains m (List.mem_append_left _ (hstack m hm))
      exact (hcl.assigned m hm (h.inv.contains_graph ▸ hmc)).1
  · rw [hcl.stack]
    exact h₀.path_open m hm
  · rw [hperm.mem_iff] at hm ⊢
    exact h.explored_done hdone hm hmp hk
  · rcases hcl.getElem?_cycles.mp hc with hc | ⟨rfl, rfl⟩
    · obtain ⟨j, hj, c', hc', hk'⟩ := h.inv.closed_successors i c hc m hm k hk
      exact ⟨j, hj, c', hcl.getElem?_cycles.mpr (.inl hc'), hk'⟩
    · rcases h.cycle_successors h₀ hdone hroot hst hx hm hk with hk' | hk'
      · exact ⟨_, Nat.le_refl _, _, hc, hk'⟩
      · obtain ⟨j, c', hc', hk'⟩ := mem_closed hk'
        have hj := (List.getElem?_eq_some_iff.mp hc').1
        exact ⟨j, Nat.le_of_lt hj, c', hcl.getElem?_cycles.mpr (.inl hc'), hk'⟩
  · rw [hcl.stack] at ha hb
    rw [hcl.number, hcl.number] at hab
    exact h.inv.older_reaches a (h.mem_stack_of_old ha) b (h.mem_stack_of_old hb) hab
  · rw [hcl.stack] at hb
    obtain ⟨a, ha, hle, hr⟩ := h.inv.reaches_path b (h.mem_stack_of_old hb)
    rcases List.mem_cons.mp ha with rfl | ha
    · exact absurd hle (Nat.not_le_of_lt (hold b hb))
    · refine ⟨a, ha, ?_, hr⟩
      rw [hcl.number, hcl.number]
      exact hle
  · rw [hcl.cycles] at hc
    rcases List.mem_append.mp hc with hc | hc
    · exact h.inv.cycle c hc
    · rw [List.mem_singleton.mp hc]
      exact ⟨by simp, h.cycle_spec h₀ hdone hroot hst hx⟩

/-- A component that reaches nothing older is closed with its cycle. -/
theorem Loop.close (h : Loop g goal path p s₀ s done) (h₀ : Inv g goal path s₀)
    (hdone : ∀ m ∈ g.logicalSuccessors p, m ∈ done) (hroot : s.high p = s.number p) :
    Explored g goal path p s₀ (s.close p) := by
  obtain ⟨new, hst, hx⟩ := h.new
  have hpn : p ∉ new := fun hp => Nat.lt_irrefl _ ((h.younger_older hst).1 p hp)
  have hcl := closes_close hst hpn
  have hperm := hcl.perm (by rw [hst]; simp)
  have hps : p ∈ s.seen := List.mem_append_left _ h.mem_stack_self
  have hhigh : (s.close p).high p = s₀.counter := by
    have hcp := h.inv.contains_graph ▸ h.inv.contains p hps
    have hp : p ∈ new ++ [p] := List.mem_append_right _ (List.mem_singleton_self p)
    exact (hcl.assigned p hp hcp).2.trans (hroot.trans h.number)
  exact
    { inv := h.inv_close h₀ hdone hroot hst hx hcl
      old := fun m hm => (hcl.mark m (h.not_mem_cycle h₀ hst hm)).trans (h.old m hm)
      seen := hperm.mem_iff.mpr hps
      counter_lt := hcl.counter ▸ h.counter_lt
      new := ⟨[], hcl.stack, nofun⟩
      high := .inl (Nat.le_of_eq hhigh) }

/-- A component that reaches something older stays open. -/
theorem Loop.stay_open (h : Loop g goal path p s₀ s done)
    (hdone : ∀ m ∈ g.logicalSuccessors p, m ∈ done) (hroot : s.high p ≠ s.number p) :
    Explored g goal path p s₀ s := by
  obtain ⟨new, hst, hx⟩ := h.new
  obtain ⟨hyoung, hold⟩ := h.younger_older hst
  have hhigh : s.number p < s.high p := Nat.lt_of_le_of_ne h.high_ge (Ne.symm hroot)
  -- what `p` reaches highest is older than `p`, and so leads on to the path below `p`
  obtain ⟨y, hy, hny, hpy⟩ := h.high_reached
  have hy₀ : y ∈ s₀.stack := by
    rw [hst] at hy
    rcases List.mem_append.mp hy with hy | hy
    · have := hyoung y hy
      omega
    · rcases List.mem_cons.mp hy with rfl | hy
      · omega
      · exact hy
  have hbelow : ∃ a ∈ path, s.number p < s.number a ∧ g.Reaches p a := by
    obtain ⟨a, ha, hle, hya⟩ := h.inv.reaches_path y hy
    rcases List.mem_cons.mp ha with rfl | ha
    · omega
    · exact ⟨a, ha, by omega, ReflTransGen.trans hpy hya⟩
  refine
    { inv :=
        { h.inv with
          path_open := fun m hm => h.inv.path_open m (List.mem_cons_of_mem _ hm)
          explored := fun m hm hmp k hk => h.explored_done hdone hm hmp hk
          reaches_path := fun b hb => ?_ }
      old := h.old
      seen := List.mem_append_left _ h.mem_stack_self
      counter_lt := h.counter_lt
      new := ⟨new ++ [p], by rw [hst]; simp, fun x hxm y hy hyx => ?_⟩
      high := .inr ⟨y, hy₀, hny, hpy⟩ }
  · obtain ⟨a, ha, hle, hr⟩ := h.inv.reaches_path b hb
    rcases List.mem_cons.mp ha with rfl | ha
    · obtain ⟨a', ha', hlt, hr'⟩ := hbelow
      exact ⟨a', ha', by omega, ReflTransGen.trans hr hr'⟩
    · exact ⟨a, ha, hle, hr⟩
  · rcases List.mem_append.mp hxm with hxm | hxm
    · exact hx x hxm y hy hyx
    · rw [List.mem_singleton.mp hxm] at hyx
      exact h.cross y hy (hdone y hyx)

theorem Loop.leave (h : Loop g goal path p s₀ s done) (h₀ : Inv g goal path s₀)
    (hdone : ∀ m ∈ g.logicalSuccessors p, m ∈ done) :
    Explored g goal path p s₀ (s.leave p) := by
  by_cases hroot : s.high p = s.number p
  · have e : s.leave p = s.close p := if_pos hroot
    rw [e]
    exact h.close h₀ hdone hroot
  · have e : s.leave p = s := if_neg hroot
    rw [e]
    exact h.stay_open hdone hroot

end Loop

/-! ## 8. The whole walk -/

theorem loop_enter {goal : NodeId → Prop} {path : List NodeId} (hs : Inv g goal path s)
    (hn : g.contains n) (hnum : s.number n = 0) (hgoal : goal n)
    (hpath : ∀ a ∈ path, g.Reaches a n) : Loop g goal path n s (s.enter n) [] := by
  have hns : n ∉ s.seen := fun h => (hs.mem_seen n).mp h hnum
  have hc := hs.counter_pos hn hnum
  have hmark := mark_enter (n := n) (m := n) (hs.contains_graph ▸ hn)
  rw [if_pos rfl] at hmark
  have hnumber : (s.enter n).number n = s.counter := by unfold number; rw [hmark]
  have hhigh : (s.enter n).high n = s.counter := by unfold high; rw [hmark]
  refine
    { inv := hs.enter hn hnum hgoal hpath
      entered := hns
      old := fun m hm => ?_
      number := hnumber
      counter_lt := Nat.sub_lt hc Nat.one_pos
      new := ⟨[], rfl, nofun⟩
      high_ge := Nat.le_of_eq (hnumber.trans hhigh.symm)
      high_reached := ⟨n, List.mem_cons_self, hnumber.trans hhigh.symm, ReflTransGen.refl⟩
      handled := nofun
      cross := nofun }
  have hne : n ≠ m := fun e => hns (e ▸ hm)
  rw [mark_enter (hs.contains_graph ▸ hn), if_neg hne]

/-- **A walk from a component that was not visited yet** keeps the invariant, as long as it may go
as deep as there are components left. -/
theorem explore_spec (hg : g.Grouped) {goal : NodeId → Prop}
    (hgoal : ∀ a b, goal a → b ∈ g.logicalSuccessors a → goal b) (depth : Nat) :
    ∀ (s : Survey φ τ) (n : NodeId) (path : List NodeId), Inv g goal path s → g.contains n →
      s.number n = 0 → goal n → (∀ a ∈ path, g.Reaches a n) → s.counter ≤ depth →
      Explored g goal path n s (explore depth s n) := by
  induction depth with
  | zero =>
    intro s n path hs hn hnum _ _ hle
    have := hs.counter_pos hn hnum
    omega
  | succ depth ih =>
    intro s n path hs hn hnum hgn hpath hle
    -- the successors are followed one by one
    have hloop : ∀ (todo done : List NodeId) (s' : Survey φ τ), Loop g goal path n s s' done →
        (∀ c ∈ todo, c ∈ g.logicalSuccessors n) →
        Loop g goal path n s (todo.foldl (follow depth n) s') (done ++ todo) := by
      intro todo
      induction todo with
      | nil =>
        intro done s' h _
        rw [List.append_nil]
        exact h
      | cons c todo ihl =>
        intro done s' h hsucc
        have hc := hsucc c List.mem_cons_self
        have hfollow := h.follow depth hs hc fun hnum' => by
          refine ih s' c (n :: path) h.inv ?_ hnum' ?_ ?_ ?_
          · exact Graph.contains_of_mem_logicalSuccessors hg hc
          · exact hgoal n c hgn hc
          · exact h.path_reaches hs hc
          · have := h.counter_lt
            omega
        have := ihl (done ++ [c]) _ hfollow fun k hk => hsucc k (List.mem_cons_of_mem _ hk)
        rw [List.append_assoc] at this
        exact this
    have henter := loop_enter hs hn hnum hgn hpath
    rw [explore_succ, henter.inv.logicalSuccessors]
    exact (hloop _ [] _ henter fun _ h => h).leave hs fun m hm => hm

theorem inv_start (g : Graph φ τ) (goal : NodeId → Prop) : Inv g goal [] (start g) := by
  have hmark : ∀ n, (start g).graph.mark n = {} := by
    intro n
    have hnode : (start g).graph.node? n = (g.node? n).map fun v => { v with mark := {} } :=
      Graph.node?_unmarked
    unfold Graph.mark
    rw [hnode]
    cases g.node? n <;> rfl
  have hnum : ∀ n, (start g).number n = 0 := fun n => by rw [number, hmark n]
  have hseen : (start g).seen = [] := rfl
  refine
    { unmarked := Graph.unmarked_unmarked
      nodup := List.nodup_nil
      mem_seen := fun n => ?_
      blank := fun n _ => hmark n
      numbers := List.Perm.nil
      contains := nofun
      goal := nofun
      count := rfl
      counter_lt := nofun
      sorted := List.Pairwise.nil
      open_component := nofun
      closed_component := nofun
      path_open := nofun
      explored := nofun
      closed_successors := nofun
      older_reaches := nofun
      reaches_path := nofun
      cycle := nofun }
  rw [hseen, hnum n]
  exact ⟨nofun, fun h => absurd rfl h⟩

/-- A root is due to be visited: it has a node, no filter is in the way of its component, and that
was not visited yet. -/
def Due (s : Survey φ τ) (root : NodeId) : Prop :=
  s.graph.contains root ∧ s.graph.isFusable (s.graph.representative root) ∧
    s.number (s.graph.representative root) = 0

theorem visit_of_due {root : NodeId} (h : s.Due root) :
    s.visit root = explore s.graph.size s (s.graph.representative root) := by
  obtain ⟨hc, hf, hnum⟩ := h
  unfold visit
  rw [if_pos hc]
  refine if_pos ?_
  rw [Bool.and_eq_true, beq_iff_eq]
  exact ⟨hf, hnum⟩

theorem visit_of_not_due {root : NodeId} (h : ¬ s.Due root) : s.visit root = s := by
  unfold visit
  by_cases hc : s.graph.contains root
  · rw [if_pos hc]
    refine if_neg ?_
    rw [Bool.and_eq_true, beq_iff_eq]
    exact fun hf => h ⟨hc, hf⟩
  · rw [if_neg hc]

theorem Numbered.due_iff {goal : NodeId → Prop} (hs : Numbered g goal s) {root : NodeId} :
    s.Due root ↔ g.contains root ∧ g.isFusable (g.representative root) ∧
      s.number (g.representative root) = 0 := by
  unfold Due
  rw [hs.contains_graph, Graph.representative_of_unmarked hs.unmarked,
    Graph.isFusable_of_unmarked hs.unmarked]

/-- A root brings its own component among the visited ones, if no filter is in the way. -/
theorem visit_spec (hg : g.Grouped) {goal : NodeId → Prop}
    (hgoal : ∀ a b, goal a → b ∈ g.logicalSuccessors a → goal b) {root : NodeId}
    (hroot : g.contains root → g.isFusable (g.representative root) →
      goal (g.representative root)) (hs : Inv g goal [] s) :
    Inv g goal [] (s.visit root) ∧ (∀ n ∈ s.seen, n ∈ (s.visit root).seen) ∧
      (g.contains root → g.isFusable (g.representative root) →
        g.representative root ∈ (s.visit root).seen) := by
  by_cases hdue : s.Due root
  · rw [visit_of_due hdue, Graph.size_of_unmarked hs.unmarked,
      Graph.representative_of_unmarked hs.unmarked]
    obtain ⟨hc, hf, hnum⟩ := hs.due_iff.mp hdue
    have h := explore_spec hg hgoal g.size s _ [] hs (hg.contains_rep hc) hnum (hroot hc hf)
      nofun (by have := hs.count; omega)
    exact ⟨h.inv, fun n hn => seen_mono hs h.inv h.old hn, fun _ _ => h.seen⟩
  · rw [visit_of_not_due hdue]
    refine ⟨hs, fun _ hn => hn, fun hc hf => (hs.mem_seen _).mpr fun hnum => hdue ?_⟩
    exact hs.due_iff.mpr ⟨hc, hf, hnum⟩

theorem foldl_visit_spec (hg : g.Grouped) {goal : NodeId → Prop}
    (hgoal : ∀ a b, goal a → b ∈ g.logicalSuccessors a → goal b) (roots : List NodeId) :
    ∀ s : Survey φ τ, Inv g goal [] s →
      (∀ root ∈ roots, g.contains root → g.isFusable (g.representative root) →
        goal (g.representative root)) →
      Inv g goal [] (roots.foldl visit s) ∧ (∀ n ∈ s.seen, n ∈ (roots.foldl visit s).seen) ∧
        ∀ root ∈ roots, g.contains root → g.isFusable (g.representative root) →
          g.representative root ∈ (roots.foldl visit s).seen := by
  induction roots with
  | nil => exact fun s hs _ => ⟨hs, fun _ h => h, nofun⟩
  | cons root roots ih =>
    intro s hs hroots
    obtain ⟨hinv, hold, hnew⟩ := visit_spec hg hgoal (hroots root List.mem_cons_self) hs
    obtain ⟨hinv', hold', hnew'⟩ :=
      ih (s.visit root) hinv fun k hk => hroots k (List.mem_cons_of_mem _ hk)
    refine ⟨hinv', fun n hn => hold' n (hold n hn), fun k hk => ?_⟩
    rcases List.mem_cons.mp hk with rfl | hk
    · exact fun hc hf => hold' _ (hnew hc hf)
    · exact hnew' k hk

/-- **What a search finds.** -/
structure Found (g : Graph φ τ) (roots : List NodeId) (s : Survey φ τ) : Prop where
  unmarked : s.graph.unmarked = g.unmarked
  nodup : s.cycles.flatten.Nodup
  mem_cycles : ∀ n, n ∈ s.cycles.flatten ↔ g.Reached roots n
  cycle : ∀ c ∈ s.cycles, c ≠ [] ∧ ∀ a ∈ c, ∀ b, b ∈ c ↔ g.Mutual a b
  visited : s.visited = s.cycles.flatten.length

theorem run_inv (hg : g.Grouped) (roots : List NodeId) :
    Inv g (g.Reached roots) [] (run g roots) ∧ ∀ root ∈ roots, g.contains root →
      g.isFusable (g.representative root) → g.representative root ∈ (run g roots).seen := by
  obtain ⟨hinv, -, hroots⟩ := foldl_visit_spec hg (fun _ _ ha hb => Graph.Reached.step ha hb) roots
    (start g) (inv_start g (g.Reached roots))
    fun root hr hc hf => ⟨root, hr, hc, hf, ReflTransGen.refl⟩
  exact ⟨hinv, hroots⟩

/-- In the end nothing is open. -/
theorem seen_run (hg : g.Grouped) (roots : List NodeId) :
    (run g roots).seen = (run g roots).cycles.flatten := by
  unfold seen
  rw [(run_inv hg roots).1.stack_eq_nil rfl, List.nil_append]

/-- **The search finds the cycles**: each component that is reached from the roots once, grouped
with exactly the components on a common cycle with it. -/
theorem run_found (hg : g.Grouped) (roots : List NodeId) : Found g roots (run g roots) := by
  obtain ⟨hinv, hroots⟩ := run_inv hg roots
  have hseen := seen_run hg roots
  refine
    { unmarked := hinv.unmarked
      nodup := hseen ▸ hinv.nodup
      mem_cycles := fun n => ⟨fun h => hinv.goal n (hseen ▸ h), ?_⟩
      cycle := hinv.cycle
      visited := ?_ }
  · rintro ⟨root, hr, hc, hf, hn⟩
    exact hinv.closed_reaches (hseen ▸ hroots root hr hc hf) hn
  · have hcount := hinv.count
    have hsize := Graph.size_of_unmarked hinv.unmarked
    rw [hseen] at hcount
    unfold visited
    omega

/-- The components that were numbered are those that are reached. -/
theorem number_run (hg : g.Grouped) (roots : List NodeId) :
    (run g roots).number n ≠ 0 ↔ g.Reached roots n := by
  rw [← (run_inv hg roots).1.mem_seen, seen_run hg, (run_found hg roots).mem_cycles]

theorem run_spec (hg : g.WellFormed) (roots : List NodeId) : Found g roots (run g roots) :=
  run_found hg.grouped roots

end ValueFlow.Survey
