import StackLowering.Proofs.Agreement
/-!
Which cleanups a transfer runs. The cleanups around the code are ordered by the
loops and switches around their regions, in every state in which a tree is
lowered. So the look-up by depth finds where the cleanups inside a loop or
switch begin, and a transfer runs a copy of each of them, the innermost one
first, with only the cleanups around the copied one still pending.

The states meant are those in which a handler starts. A lowering that fails
stops there; it leaves loops and cleanups behind, and nothing is said about
code that is lowered in the state it leaves.
-/

namespace StackLowering

open Lower

/-- Cleanups further in are inside at least as many loops and switches, and none
is inside more of them than the code is. -/
structure Nested (flows : Flows) (cleanups : List Cleanup) : Prop where
  ordered : cleanups.Pairwise fun outer inner => outer.flowDepth ≤ inner.flowDepth
  bounded : ∀ c ∈ cleanups, c.flowDepth ≤ flows.length

theorem Nested.nil : Nested [] [] := ⟨.nil, fun _ hc => absurd hc List.not_mem_nil⟩

/-- What can be around code inside of code that has `flows₀` and `cleanups₀` around
it: loops, switches and regions are opened one inside the other, and the innermost
cleanups are set aside while a copy of one is lowered. -/
inductive Within (flows₀ : Flows) (cleanups₀ : List Cleanup) : Flows → List Cleanup → Prop
  | here : Within flows₀ cleanups₀ flows₀ cleanups₀
  | flow {flows : Flows} {cleanups : List Cleanup} (flow : Flow)
      (h : Within flows₀ cleanups₀ flows cleanups) :
      Within flows₀ cleanups₀ (flow :: flows) cleanups
  | region {flows : Flows} {cleanups : List Cleanup} (body : Tree)
      (h : Within flows₀ cleanups₀ flows cleanups) :
      Within flows₀ cleanups₀ flows (cleanups ++ [⟨body, flows.length⟩])
  | copy {flows : Flows} {cleanups : List Cleanup} (count : Nat)
      (h : Within flows₀ cleanups₀ flows cleanups) :
      Within flows₀ cleanups₀ flows (cleanups.take count)

variable {outer : Flows} {recur' : Recur}

namespace Within

variable {flows₀ flows flows' : Flows} {cleanups₀ cleanups cleanups' : List Cleanup}

theorem trans (h : Within flows₀ cleanups₀ flows cleanups)
    (h' : Within flows cleanups flows' cleanups') : Within flows₀ cleanups₀ flows' cleanups' := by
  induction h' with
  | here => exact h
  | flow flow _ ih => exact ih.flow flow
  | region body _ ih => exact ih.region body
  | copy count _ ih => exact ih.copy count

/-- Opening loops and regions one inside the other keeps the cleanups nested. -/
theorem nested (h : Within flows₀ cleanups₀ flows cleanups) (hnested : Nested flows₀ cleanups₀) :
    Nested flows cleanups := by
  induction h with
  | here => exact hnested
  | flow _ _ ih => exact ⟨ih.ordered, fun c hc => Nat.le_succ_of_le (ih.bounded c hc)⟩
  | @region flows cleanups body _ ih =>
    refine ⟨List.pairwise_append.mpr ⟨ih.ordered, List.pairwise_singleton _ _, ?_⟩, ?_⟩
    · intro c hc inner hinner
      rw [List.mem_singleton.mp hinner]
      exact ih.bounded c hc
    · intro c hc
      rcases List.mem_append.mp hc with hc | hc
      · exact ih.bounded c hc
      · rw [List.mem_singleton.mp hc]
  | copy count _ ih =>
    exact ⟨ih.ordered.sublist (List.take_sublist _ _),
      fun c hc => ih.bounded c (List.mem_of_mem_take hc)⟩

theorem suffix (h : Within flows₀ cleanups₀ flows cleanups) : flows₀ <:+ flows := by
  induction h with
  | here => exact List.suffix_rfl
  | flow flow _ ih => exact ih.trans (List.suffix_cons flow _)
  | region _ _ ih | copy _ _ ih => exact ih

/-- The cleanups that were there at the start come first, as far as they are
pending, and all others are inside at least the loops and switches of the start. -/
theorem split (h : Within flows₀ cleanups₀ flows cleanups) :
    ∃ before inside, cleanups = before ++ inside ∧ before <+: cleanups₀ ∧
      ∀ c ∈ inside, flows₀.length ≤ c.flowDepth := by
  induction h with
  | here => exact ⟨cleanups₀, [], (List.append_nil _).symm, List.prefix_rfl, by simp⟩
  | flow _ _ ih => exact ih
  | @region flows _ body h ih =>
    obtain ⟨before, inside, rfl, hbefore, hinside⟩ := ih
    refine ⟨before, inside ++ [⟨body, flows.length⟩], List.append_assoc _ _ _, hbefore, ?_⟩
    intro c hc
    rcases List.mem_append.mp hc with hc | hc
    · exact hinside c hc
    · rw [List.mem_singleton.mp hc]
      exact h.suffix.length_le
  | copy count _ ih =>
    obtain ⟨before, inside, rfl, hbefore, hinside⟩ := ih
    exact ⟨before.take count, inside.take (count - before.length), List.take_append,
      (List.take_prefix _ _).trans hbefore, fun c hc => hinside c (List.mem_of_mem_take hc)⟩

/-- Every loop or switch around the code, unless it was there at the start, was
opened on the way. -/
theorem opened (h : Within flows₀ cleanups₀ flows cleanups) {inner : Flows} {flow : Flow}
    (hflows : flows = inner ++ flow :: outer) (hstart : flows₀ <:+ outer) :
    ∃ earlier, Within flows₀ cleanups₀ outer earlier ∧
      Within (flow :: outer) earlier flows cleanups := by
  induction h generalizing inner with
  | here =>
    have hlength := hstart.length_le
    rw [hflows, List.length_append, List.length_cons] at hlength
    omega
  | @flow flows cleanups added h ih =>
    cases inner with
    | nil =>
      cases hflows
      exact ⟨cleanups, h, .here⟩
    | cons first inner =>
      obtain ⟨rfl, hrest⟩ := List.cons.inj hflows
      obtain ⟨earlier, hbefore, hafter⟩ := ih hrest
      exact ⟨earlier, hbefore, hafter.flow added⟩
  | region body _ ih =>
    obtain ⟨earlier, hbefore, hafter⟩ := ih hflows
    exact ⟨earlier, hbefore, hafter.region body⟩
  | copy count _ ih =>
    obtain ⟨earlier, hbefore, hafter⟩ := ih hflows
    exact ⟨earlier, hbefore, hafter.copy count⟩

end Within

namespace Lower

variable {env : Env} {flows₀ : Flows} {cleanups₀ : List Cleanup}

/-- Both lowerings have the same settings, and may fail in any way. -/
def Comparison.same (env : Env) : Comparison env :=
  .within (fun _ => True) (fun _ _ => trivial) fun _ => trivial

end Lower

/-- What the handler of a tree does depends on how another tree is lowered in a
state. Handlers let every fault through, so this is so if they ever lower the
tree there. -/
def Calls (env : Env) (recur : Recur) (node : Tree) (s : State) (tree : Tree) (t : State) : Prop :=
  ∃ recur' : Recur,
    (∀ tree' t', (tree', t') ≠ (tree, t) → recur' tree' env t' = recur tree' env t') ∧
      Lowering.tree recur' node env s ≠ Lowering.tree recur node env s

/-- Lowering a tree in the first state lowers another one in the second state. -/
inductive Visits (env : Env) : Nat → Tree → State → Tree → State → Prop
  | here {depth : Nat} {tree : Tree} {s : State} : Visits env depth tree s tree s
  | inside {depth : Nat} {node tree tree' : Tree} {s t t' : State}
      (hcall : Calls env (Handlers.standard.run depth) node s tree t)
      (hrest : Visits env depth tree t tree' t') : Visits env (depth + 1) node s tree' t'

/-- Code of the same routine inside of that of the first state, or code of a
routine declared there, which has nothing around it. -/
def State.Encloses (s t : State) : Prop :=
  Within s.flows s.cleanups t.flows t.cleanups ∨ Within [] [] t.flows t.cleanups

section Visits

variable {env : Env} {flows₀ : Flows} {cleanups₀ : List Cleanup} {depth : Nat}
  {node tree : Tree} {s t : State}

theorem State.Encloses.nested (h : s.Encloses t) (hs : Nested s.flows s.cleanups) :
    Nested t.flows t.cleanups := by
  rcases h with h | h
  · exact h.nested hs
  · exact h.nested .nil

theorem State.Encloses.opened (h : s.Encloses t) (hs : Nested s.flows s.cleanups) {inner : Flows}
    {flow : Flow} (hflows : t.flows = inner ++ flow :: outer) (hstart : s.flows <:+ outer) :
    ∃ earlier, Nested outer earlier ∧ Within (flow :: outer) earlier t.flows t.cleanups := by
  rcases h with h | h
  · obtain ⟨earlier, hbefore, hafter⟩ := h.opened hflows hstart
    exact ⟨earlier, hbefore.nested hs, hafter⟩
  · obtain ⟨earlier, hbefore, hafter⟩ := h.opened hflows (List.nil_suffix)
    exact ⟨earlier, hbefore.nested .nil, hafter⟩

end Visits

section Splits

variable {flows : Flows} {cleanups : List Cleanup}

/-- The first cleanup inside a loop or switch is followed by others inside it
only, and none before it is. -/
theorem Nested.split (h : Nested flows cleanups) (depth : Nat) :
    (∀ c ∈ cleanups.take (cleanups.findIdx (depth < ·.flowDepth)), c.flowDepth ≤ depth) ∧
      ∀ c ∈ cleanups.drop (cleanups.findIdx (depth < ·.flowDepth)), depth < c.flowDepth := by
  have hordered := h.ordered
  clear h
  induction cleanups with
  | nil => simp
  | cons c rest ih =>
    obtain ⟨hc, hrest⟩ := List.pairwise_cons.mp hordered
    obtain ⟨houtside, hinside⟩ := ih hrest
    rw [List.findIdx_cons]
    by_cases hdepth : depth < c.flowDepth
    · rw [decide_eq_true hdepth]
      refine ⟨fun _ hmem => absurd hmem List.not_mem_nil, fun inner hinner => ?_⟩
      rcases List.mem_cons.mp hinner with rfl | hinner
      · exact hdepth
      · exact hdepth.trans_le (hc inner hinner)
    · rw [decide_eq_false hdepth]
      refine ⟨fun outer houter => ?_, hinside⟩
      rcases List.mem_cons.mp houter with rfl | houter
      · exact Nat.le_of_not_lt hdepth
      · exact houtside outer houter

end Splits

/-- Copies of cleanups, one after the other. While a copy is lowered, only the
cleanups below it are pending, and all of them are again when it is done. -/
inductive Inlines (env : Env) (recur : Recur) (below : List Cleanup) :
    List Cleanup → State → State → Prop
  | done {s : State} : Inlines env recur below [] s s
  | copy {c : Cleanup} {rest : List Cleanup} {s m s' : State}
      (hcopy : Runs (recur.inScope c.body) env { s with cleanups := below ++ rest.reverse } () m)
      (hrest : Inlines env recur below rest { m with cleanups := s.cleanups } s') :
      Inlines env recur below (c :: rest) s s'

section Transfers

variable {env : Env} {recur : Recur} {s s' : State}

theorem inlines_nil {below : List Cleanup} : Inlines env recur below [] s s' ↔ s' = s := by
  constructor
  · rintro ⟨⟩
    rfl
  · rintro rfl
    exact .done

theorem inlines_cons {below rest : List Cleanup} {c : Cleanup} :
    Inlines env recur below (c :: rest) s s' ↔
      ∃ m, Runs (recur.inScope c.body) env { s with cleanups := below ++ rest.reverse } () m ∧
        Inlines env recur below rest { m with cleanups := s.cleanups } s' := by
  constructor
  · rintro ⟨⟩
    exact ⟨_, ‹_›, ‹_›⟩
  · rintro ⟨m, hcopy, hrest⟩
    exact .copy hcopy hrest

theorem runs_inlineCleanup (hrecur : Derives env recur) {index : Nat}
    (hindex : index < s.cleanups.length) :
    Runs (Lowering.inlineCleanup recur index) env s () s' ↔
      ∃ m, Runs (recur.inScope s.cleanups[index].body) env
          { s with cleanups := s.cleanups.take index } () m ∧
        s' = { m with cleanups := s.cleanups } := by
  have htaken := List.drop_eq_getElem_cons hindex
  have hbracket : Runs (Lowering.inlineCleanup recur index) env s () s' ↔
      Runs (bracket (fun _ => (s.takeCleanups index).2)
        (State.restoreCleanups (s.cleanups.drop index))
        (Lowering.copyFirst recur (s.cleanups.drop index))) env s () s' := Iff.rfl
  rw [hbracket, runs_bracket, htaken]
  refine exists_congr fun m => and_congr_right fun hcopy => ?_
  -- A copy leaves the cleanups below it as they were.
  have hkept : m.cleanups = s.cleanups.take index := (hrecur.inScope hcopy).keeps.cleanups
  rw [State.restoreCleanups, hkept, ← htaken, List.take_append_drop]

theorem runs_forM_inlineCleanup (hrecur : Derives env recur) {start count : Nat}
    (hcount : start + count ≤ s.cleanups.length) :
    Runs ((List.range count).forM fun i => Lowering.inlineCleanup recur (start + count - 1 - i))
        env s () s' ↔
      Inlines env recur (s.cleanups.take start)
        ((s.cleanups.take (start + count)).drop start).reverse s s' := by
  induction count generalizing s with
  | zero =>
    have hnone : (s.cleanups.take (start + 0)).drop start = [] := by simp
    rw [hnone, List.reverse_nil, inlines_nil]
    exact runs_pure.trans ⟨fun h => h.2.symm, fun h => ⟨rfl, h.symm⟩⟩
  | succ count ih =>
    have hindex : start + count < s.cleanups.length := hcount
    have hlast : (s.cleanups.take (start + (count + 1))).drop start =
        (s.cleanups.take (start + count)).drop start ++ [s.cleanups[start + count]] := by
      rw [← Nat.add_assoc, ← List.take_append_getElem hindex,
        List.drop_append_of_le_length (by rw [List.length_take]; omega)]
    have hbelow : s.cleanups.take start ++
        ((s.cleanups.take (start + count)).drop start).reverse.reverse =
          s.cleanups.take (start + count) := by
      have htake : s.cleanups.take start = (s.cleanups.take (start + count)).take start := by
        rw [List.take_take, Nat.min_eq_left (Nat.le_add_right _ _)]
      rw [List.reverse_reverse, htake, List.take_append_drop]
    have hfirst : ((List.range (count + 1)).forM fun i =>
        Lowering.inlineCleanup recur (start + (count + 1) - 1 - i)) = (do
          Lowering.inlineCleanup recur (start + count)
          (List.range count).forM fun i =>
            Lowering.inlineCleanup recur (start + count - 1 - i)) := by
      have hindices (i : Nat) : start + (count + 1) - 1 - i.succ = start + count - 1 - i := by
        omega
      rw [List.range_succ_eq_map]
      refine bind_congr fun _ => ?_
      simp only [List.forM_eq_forM, List.forM_map, hindices]
    rw [hlast, List.reverse_append, List.reverse_singleton, List.singleton_append, inlines_cons,
      hbelow, hfirst, runs_bind]
    constructor
    · rintro ⟨_, _, hcopy, hrest⟩
      obtain ⟨m, hbody, rfl⟩ := (runs_inlineCleanup hrecur hindex).mp hcopy
      exact ⟨m, hbody, (ih (s := { m with cleanups := s.cleanups }) hindex.le).mp hrest⟩
    · rintro ⟨m, hbody, hrest⟩
      exact ⟨(), _, (runs_inlineCleanup hrecur hindex).mpr ⟨m, hbody, rfl⟩,
        (ih (s := { m with cleanups := s.cleanups }) hindex.le).mpr hrest⟩

/-- The copies that a transfer runs, the innermost one first. -/
theorem runs_inlineCleanups (hrecur : Derives env recur) {start : Nat} :
    Runs (Lowering.inlineCleanups recur start) env s () s' ↔
      Inlines env recur (s.cleanups.take start) (s.cleanups.drop start).reverse s s' := by
  have hrun : Runs (Lowering.inlineCleanups recur start) env s () s' ↔
      Runs ((List.range (s.cleanups.length - start)).forM fun i =>
        Lowering.inlineCleanup recur (s.cleanups.length - 1 - i)) env s () s' := Iff.rfl
  rw [hrun]
  rcases Nat.lt_or_ge s.cleanups.length start with hlt | hle
  · rw [Nat.sub_eq_zero_of_le hlt.le, List.drop_of_length_le hlt.le, List.reverse_nil, inlines_nil]
    exact runs_pure.trans ⟨fun h => h.2.symm, fun h => ⟨rfl, h.symm⟩⟩
  · obtain ⟨count, hcount⟩ := Nat.exists_eq_add_of_le hle
    have hall : s.cleanups.take (start + count) = s.cleanups :=
      List.take_of_length_le hcount.le
    have hcopies : _ ↔ Inlines env recur _ _ s s' := runs_forM_inlineCleanup hrecur hcount.ge
    rw [hall] at hcopies
    rw [hcount, Nat.add_sub_cancel_left]
    exact hcopies

end Transfers

section Visited

variable {env : Env} {recur : Recur} {s t : State} {node tree : Tree}

theorem bind_of_fails {α β : Type} {action : Lower α} {next : α → Lower β} {fault : Fault}
    (h : (action env s).1 = .error fault) : ((action >>= next) env s).1 = .error fault := by
  rw [bind_apply]
  rcases hrun : action env s with ⟨outcome, m⟩
  rw [hrun] at h
  cases h
  rfl

/-- A tree is lowered in a state if the handler fails whenever that does. -/
theorem calls_of_fails (h : ∀ (recur' : Recur) (fault : Fault),
      (recur' tree env t).1 = .error fault → (Lowering.tree recur' node env s).1 = .error fault) :
    Calls env recur node s tree t := by
  classical
  let failing (fault : Fault) : Recur := fun tree' env' t' =>
    if (tree', t') = (tree, t) then (.error fault, t') else recur tree' env' t'
  have helsewhere (fault : Fault) (tree' : Tree) (t' : State) (hne : (tree', t') ≠ (tree, t)) :
      failing fault tree' env t' = recur tree' env t' := if_neg hne
  have hthere (fault : Fault) : failing fault tree env t = (.error fault, t) := if_pos rfl
  have hfails (fault : Fault) : (Lowering.tree (failing fault) node env s).1 = .error fault :=
    h (failing fault) fault (congrArg Prod.fst (hthere fault))
  -- One of two faults is not the outcome there would be otherwise.
  by_cases hsame : Lowering.tree (failing .redirectOutsideSwitch) node env s =
      Lowering.tree recur node env s
  · refine ⟨failing (.continueOutsideLoop none), helsewhere _, fun hother => ?_⟩
    have hboth := congrArg Prod.fst (hsame.trans hother.symm)
    rw [hfails, hfails] at hboth
    cases hboth
  · exact ⟨failing .redirectOutsideSwitch, helsewhere _, hsame⟩

theorem then_of_runs {α : Type} {action : Lower Unit} {next : Unit → Lower α}
    (h : Runs action env s () t) : (action >>= next) env s = next () env t :=
  bind_of_runs h

theorem inScope_fails {fault : Fault}
    (h : (recur tree env (s.enterScope.withDepth 0)).1 = .error fault) :
    (recur.inScope tree env s).1 = .error fault := h

theorem runs_newLoopLabels : Runs Lowering.newLoopLabels env s s.loopLabels (s.newLabels 4) := by
  simp only [Lowering.newLoopLabels, runs_bind, runs_newLabel, runs_pure]
  refine ⟨_, _, ⟨rfl, rfl⟩, _, _, ⟨rfl, rfl⟩, _, _, ⟨rfl, rfl⟩, _, _, ⟨rfl, rfl⟩, ?_, rfl⟩
  simp only [State.label_emits_newLabel, Nat.zero_add]
  rfl

/-- The state in which a loop lowers its body, its record being the innermost one. -/
def State.loopBody (label : Option String) (bodyFirst : Bool) (s : State) : State :=
  ((((s.newLabels 4).emitsAll
    (if bodyFirst then [] else [.jump .jump s.loopLabels.condition])).pushFlow
      (s.loopLabels.flow label s.loopLabels.condition)).emits
        (.bind s.loopLabels.body)).enterScope.withDepth 0

/-- The state in which a region lowers its body, its cleanup being the innermost one. -/
def State.regionBody (cleanup : Tree) (s : State) : State :=
  (((s.newLabels 3).pushCleanup cleanup).emits (.bind (s.label 0))).enterScope.withDepth 0

theorem Visits.whileLoop {depth : Nat} {label : Option String} {condition body : Tree}
    {bodyFirst : Bool} (hbody : Visits env depth body (s.loopBody label bodyFirst) node t) :
    Visits env (depth + 1) (.whileLoop label condition body bodyFirst) s node t := by
  refine .inside ?_ hbody
  refine calls_of_fails fun recur' fault hbody => ?_
  have hscope := inScope_fails hbody
  rw [Lowering.tree, Lowering.whileLoop, bind_of_runs runs_newLoopLabels]
  dsimp only
  cases bodyFirst
  · rw [if_neg Bool.false_ne_true, then_of_runs (runs_jump.mpr rfl),
      then_of_runs (runs_modify.mpr rfl), then_of_runs (runs_mark.mpr rfl)]
    exact bind_of_fails hscope
  · rw [if_pos rfl, then_of_runs (runs_modify.mpr rfl), then_of_runs (runs_mark.mpr rfl)]
    exact bind_of_fails hscope

theorem Visits.guarded {depth : Nat} {body cleanup : Tree} {catches : List Catch}
    (hbody : Visits env depth body (s.regionBody cleanup) node t) :
    Visits env (depth + 1) (.guarded body catches (some cleanup)) s node t := by
  refine .inside ?_ hbody
  refine calls_of_fails fun recur' fault hbody => ?_
  have hscope := inScope_fails hbody
  rw [Lowering.tree, Lowering.guarded, bind_of_runs (runs_newLabel.mpr ⟨rfl, rfl⟩),
    bind_of_runs (runs_newLabel.mpr ⟨rfl, rfl⟩), bind_of_runs (runs_newLabel.mpr ⟨rfl, rfl⟩),
    bind_of_runs (runs_get.mpr ⟨rfl, rfl⟩)]
  dsimp only
  rw [then_of_runs (runs_modify.mpr rfl), then_of_runs (runs_mark.mpr rfl)]
  exact bind_of_fails hscope

end Visited

end StackLowering
