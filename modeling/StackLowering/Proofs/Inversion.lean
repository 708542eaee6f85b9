import StackLowering.Proofs.Operations
/-!
Every successful lowering by the standard handlers is a derivation.
-/

namespace StackLowering

open Lower

namespace State

@[simp]
theorem label_emits_newLabel (index : Nat) (s : State) :
    (s.emits .newLabel).label index = s.label (index + 1) := by
  simp only [label, emits, onAssembler, Call.run, Assembler.newLabel, Array.size_push]
  congr 1
  omega

end State

/-- The derivations of all trees that are lowered by `recur`. -/
def Derives (env : Env) (recur : Recur) : Prop :=
  ∀ {tree : Tree} {s s' : State}, Runs (recur tree) env s () s' → Lowers env (.tree tree) s s'

variable {ty owner : Ty} {label : Option String} {name : String} {body subject right array : Tree}
  {receiver : Option Tree} {ranges : List (Label × Label)} {decl : RoutineDecl}

namespace Derives

variable {env : Env} {recur : Recur} {s s' : State}

theorem value (hrecur : Derives env recur) {tree : Tree}
    (h : Runs (recur.value tree) env s () s') : Lowers env (.value tree) s s' := by
  obtain ⟨m, htree, rfl⟩ := runs_inExpression.mp h
  exact .value (hrecur htree)

theorem statement (hrecur : Derives env recur) {tree : Tree}
    (h : Runs (recur.statement tree) env s () s') : Lowers env (.statement tree) s s' := by
  obtain ⟨m, htree, rfl⟩ := runs_inStatement.mp h
  exact .statement (hrecur htree)

theorem inScope (hrecur : Derives env recur) {tree : Tree}
    (h : Runs (recur.inScope tree) env s () s') : Lowers env (.inScope tree) s s' := by
  obtain ⟨m, htree, rfl⟩ := runs_withScope.mp h
  exact .inScope (hrecur.statement htree)

theorem seq {α : Type} {action : α → Lower Unit} {job : α → Job}
    (hjob : ∀ {item : α} {s s' : State}, Runs (action item) env s () s' →
      Lowers env (job item) s s') {items : List α} (h : Runs (items.forM action) env s () s') :
    Lowers env (.seq (items.map job)) s s' := by
  induction items generalizing s with
  | nil =>
    obtain ⟨_, rfl⟩ := runs_pure.mp h
    exact .nil
  | cons item rest ih =>
    obtain ⟨_, m, hitem, hrest⟩ := runs_bind.mp h
    exact .cons (hjob hitem) (ih hrest)

section

variable (hrecur : Derives env recur)

include hrecur

theorem declareLocal {value : Option Tree}
    (h : Runs (Lowering.declareLocal recur name ty value) env s () s') :
    Lowers env (.tree (.declareLocal name ty value)) s s' := by
  simp only [Lowering.declareLocal, runs_bind, runs_resolve] at h
  obtain ⟨ty', _, ⟨hty, rfl⟩, h⟩ := h
  cases value with
  | none =>
    simp only [runs_bind, runs_declare, runs_pure] at h
    obtain ⟨slot, _, ⟨slots, hslot, rfl⟩, _, rfl⟩ := h
    exact .declared hty hslot
  | some value =>
    simp only [runs_bind, runs_declare, runs_emit] at h
    obtain ⟨_, m, hvalue, slot, _, ⟨slots, hslot, rfl⟩, rfl⟩ := h
    exact .initialized hty (hrecur.value hvalue) hslot

omit hrecur in
theorem forM_emit {calls : List Call} (h : Runs (calls.forM fun call => emit call.run) env s () s') :
    s' = s.emitsAll calls := by
  induction calls generalizing s with
  | nil => exact (runs_pure.mp h).2.symm
  | cons call rest ih =>
    obtain ⟨_, m, hcall, hrest⟩ := runs_bind.mp h
    rw [ih hrest, runs_emit.mp hcall]
    rfl

theorem perform {tree : Tree} {operation : Operation} (hoperates : Operates env s tree operation)
    (h : Runs (Lowering.perform recur operation) env s () s') : Lowers env (.tree tree) s s' := by
  simp only [Lowering.perform, runs_bind, runs_discard] at h
  obtain ⟨_, _, hfirst, _, m, hoperands, _, _, hlast, rfl⟩ := h
  rw [forM_emit hlast]
  rw [forM_emit hfirst] at hoperands
  exact .operation hoperates (seq hrecur.value hoperands)

theorem operation {tree : Tree} (htree : tree.isOperation = true)
    (h : Runs (Lowering.tree recur tree) env s () s') : Lowers env (.tree tree) s s' := by
  rw [Lowering.tree_eq_operation recur htree] at h
  obtain ⟨operation, m, hoperation, hperform⟩ := runs_bind.mp h
  obtain ⟨hoperates, rfl⟩ := Lowering.runs_operation htree hoperation
  exact hrecur.perform hoperates hperform

theorem access {tree access : Tree} (haccess : Accesses env s tree access)
    (h : Runs (Lowering.access recur access) env s () s') : Lowers env (.tree tree) s s' := by
  simp only [Lowering.access, runs_bind, runs_bridged] at h
  obtain ⟨use?, t, hbridged, h⟩ := h
  cases use? with
  | some use => exact .bridged haccess hbridged (hrecur h)
  | none =>
    have ht : t = s := by
      unfold State.bridged at hbridged
      split at hbridged
      · split at hbridged <;> cases hbridged
        rfl
      · cases hbridged
        rfl
    subst ht
    exact hrecur.perform (.access haccess hbridged) h

omit hrecur in
theorem runs_checkInvocation {kind : InvokeKind} :
    Runs (Lowering.checkInvocation kind owner name) env s () s' ↔
      (∀ actual ∈ env.nest.kindOf? owner, Lowering.admitsOwner kind actual = true) ∧ s = s' := by
  simp only [Lowering.checkInvocation, runs_bind, runs_nest]
  constructor
  · rintro ⟨_, _, ⟨rfl, rfl⟩, h⟩
    cases hkind : env.nest.kindOf? owner with
    | none =>
      simp only [hkind, runs_pure] at h
      exact ⟨by simp, h.2⟩
    | some actual =>
      simp only [hkind] at h
      split_ifs at h with hadmits
      · exact ⟨by simpa using hadmits, (runs_pure.mp h).2⟩
      · exact absurd h runs_throw
  · rintro ⟨hadmits, rfl⟩
    refine ⟨_, _, ⟨rfl, rfl⟩, ?_⟩
    cases hkind : env.nest.kindOf? owner with
    | none => exact runs_pure.mpr ⟨rfl, rfl⟩
    | some actual =>
      simp only [hadmits actual hkind, if_true]
      exact runs_pure.mpr ⟨rfl, rfl⟩

theorem jumpIf {condition : Tree} {sense : Bool} {target : Label}
    (h : Runs (Lowering.jumpIf recur condition sense target) env s () s') :
    Lowers env (.jumpIf condition sense target) s s' := by
  fun_induction Lowering.jumpIf recur condition sense target generalizing s s' with
  | case1 operator left right target ihleft ihright =>
    obtain ⟨_, m, hleft, hright⟩ := runs_bind.mp h
    exact .sameJumps rfl (ihleft hleft) (ihright hright)
  | case2 operator left right sense target hsense ihleft ihright =>
    simp only [runs_bind, runs_newLabel, runs_mark] at h
    obtain ⟨_, _, ⟨rfl, rfl⟩, _, m, hleft, _, m', hright, rfl⟩ := h
    exact .skipJumps hsense (ihleft _ hleft) (ihright hright)
  | case3 operand sense target ih => exact .notJumps (ih h)
  | case4 sense target =>
    obtain rfl := runs_jump.mp h
    exact .literalJumps
  | case5 value sense target hsense =>
    obtain ⟨_, rfl⟩ := runs_pure.mp h
    exact .literalSkips hsense
  | case6 condition sense target hlogical hnot hliteral =>
    simp only [runs_bind, runs_emit] at h
    obtain ⟨_, m, hvalue, rfl⟩ := h
    exact .testJumps (Tree.isTested_of_forall_ne hlogical hnot hliteral) (hrecur.value hvalue)

theorem logical {operator : LogicalOp} {left : Tree}
    (h : Runs (Lowering.logical recur operator left right) env s () s') :
    Lowers env (.tree (.logical operator left right)) s s' := by
  simp only [Lowering.logical, runs_bind, runs_newLabel, runs_emit, runs_jump, runs_mark,
    runs_discard] at h
  obtain ⟨_, _, ⟨rfl, rfl⟩, _, _, ⟨rfl, rfl⟩, _, m, hjumps, _, _, rfl, _, _, rfl, _, _, rfl,
    _, _, rfl, _, _, rfl, rfl⟩ := h
  rw [State.label_emits_newLabel]
  exact .logical (hrecur.jumpIf hjumps)

theorem inlineCleanup {index : Nat} (h : Runs (Lowering.inlineCleanup recur index) env s () s') :
    Lowers env (.cleanup index) s s' := by
  have hbracket : Runs (bracket (fun _ => (s.takeCleanups index).2)
      (State.restoreCleanups (s.cleanups.drop index))
      (Lowering.copyFirst recur (s.cleanups.drop index))) env s () s' := h
  cases htaken : s.cleanups.drop index with
  | nil =>
    simp only [htaken, Lowering.copyFirst, runs_bracket, runs_pure, State.takeCleanups]
      at hbracket
    obtain ⟨_, ⟨_, rfl⟩, rfl⟩ := hbracket
    have hrestored : State.restoreCleanups [] { s with cleanups := s.cleanups.take index } =
        s := by
      have hall : s.cleanups.take index = s.cleanups :=
        List.take_of_length_le (List.drop_eq_nil_iff.mp htaken)
      simp [State.restoreCleanups, hall]
    rw [hrestored]
    exact .noCleanup htaken
  | cons cleanup rest =>
    simp only [htaken, Lowering.copyFirst, runs_bracket] at hbracket
    obtain ⟨m, hbody, rfl⟩ := hbracket
    exact .cleanup htaken (hrecur.inScope hbody)

theorem inlineCleanups {start : Nat} (h : Runs (Lowering.inlineCleanups recur start) env s () s') :
    Lowers env (.cleanups start) s s' := by
  simp only [Lowering.inlineCleanups, runs_bind, runs_get] at h
  obtain ⟨_, _, ⟨rfl, rfl⟩, h⟩ := h
  exact .cleanups (seq hrecur.inlineCleanup h)

theorem leaveTo {tree : Tree} {depth : Nat} {target : Label} (hleaves : Leaves s tree depth target)
    (h : Runs (Lowering.leaveTo recur depth target) env s () s') :
    Lowers env (.tree tree) s s' := by
  simp only [Lowering.leaveTo, runs_bind, runs_get, runs_jump] at h
  obtain ⟨_, _, ⟨rfl, rfl⟩, _, m, hcleanups, rfl⟩ := h
  exact .leave hleaves (hrecur.inlineCleanups hcleanups)

theorem breakTo (h : Runs (Lowering.breakTo recur label) env s () s') :
    Lowers env (.tree (.breakTo label)) s s' := by
  simp only [Lowering.breakTo, runs_bind, runs_get] at h
  obtain ⟨_, _, ⟨rfl, rfl⟩, h⟩ := h
  split at h
  · rename_i hflow
    exact hrecur.leaveTo (.breakTo hflow) h
  · exact absurd h runs_throw

theorem continueTo (h : Runs (Lowering.continueTo recur label) env s () s') :
    Lowers env (.tree (.continueTo label)) s s' := by
  simp only [Lowering.continueTo, runs_bind, runs_get] at h
  obtain ⟨_, _, ⟨rfl, rfl⟩, h⟩ := h
  split at h
  · rename_i hflow
    exact hrecur.leaveTo (.continueTo hflow) h
  · exact absurd h runs_throw

omit hrecur in
theorem defaultTarget {depth : Nat} {target : Label}
    (h : Runs Lowering.defaultTarget env s (depth, target) s') :
    (∃ flow, s.flows.innermostSwitch? = some (depth, flow) ∧ target = flow.bodyExit) ∧
      s = s' := by
  simp only [Lowering.defaultTarget, runs_bind, runs_get] at h
  obtain ⟨_, _, ⟨rfl, rfl⟩, h⟩ := h
  split at h
  · rename_i flow hflow
    obtain ⟨heq, rfl⟩ := runs_pure.mp h
    cases heq
    exact ⟨⟨flow, hflow, rfl⟩, rfl⟩
  · exact absurd h runs_throw

theorem redirect (h : Runs (Lowering.redirect recur) env s () s') :
    Lowers env (.tree .redirect) s s' := by
  simp only [Lowering.redirect, runs_bind] at h
  obtain ⟨⟨depth, target⟩, m, htarget, h⟩ := h
  obtain ⟨⟨flow, hflow, rfl⟩, rfl⟩ := defaultTarget htarget
  exact hrecur.leaveTo (.redirect hflow) h

omit hrecur in
theorem returnType {value : Tree} (h : Runs (Lowering.returnValue recur value) env s () s') :
    ∃ ty, ReturnType env s value ty ∧ Runs (Lowering.returnTyped recur value ty) env s () s' := by
  simp only [Lowering.returnValue, runs_bind, runs_get] at h
  obtain ⟨_, _, ⟨rfl, rfl⟩, h⟩ := h
  unfold ReturnType
  split_ifs at h ⊢ with hvoid
  · rw [runs_bind] at h
    obtain ⟨ty, m, hm, h⟩ := h
    obtain ⟨hty, rfl⟩ := runs_resolve.mp hm
    exact ⟨ty, hty, h⟩
  · rw [runs_bind] at h
    obtain ⟨ty, m, hm, h⟩ := h
    obtain ⟨rfl, rfl⟩ := runs_pure.mp hm
    exact ⟨_, rfl, h⟩

theorem returnValue {value : Tree} (h : Runs (Lowering.returnValue recur value) env s () s') :
    Lowers env (.tree (.ret (some value))) s s' := by
  obtain ⟨ty, hty, h⟩ := returnType h
  simp only [Lowering.returnTyped, runs_bind, runs_get] at h
  obtain ⟨_, m, hvalue, _, _, ⟨rfl, rfl⟩, h⟩ := h
  split_ifs at h with hempty
  · obtain rfl := runs_emit.mp h
    exact .returnValue hty (hrecur.value hvalue) (List.isEmpty_iff.mp hempty)
  · simp only [runs_withSlotScope, runs_bind, runs_uniqueName, runs_declare, runs_emit] at h
    obtain ⟨_, ⟨_, _, ⟨rfl, rfl⟩, slot, _, ⟨slots, hslot, rfl⟩, _, _, rfl, _, m', hcopies,
      _, _, rfl, rfl⟩, rfl⟩ := h
    exact .returnSaved hty (hrecur.value hvalue) (fun hnil => hempty (by simp [hnil])) hslot
      (hrecur.inlineCleanups hcopies)

theorem ret {value : Option Tree} (h : Runs (Lowering.ret recur value) env s () s') :
    Lowers env (.tree (.ret value)) s s' := by
  cases value with
  | some value => exact hrecur.returnValue h
  | none =>
    simp only [Lowering.ret, runs_bind, runs_op] at h
    obtain ⟨_, m, hcleanups, rfl⟩ := h
    exact .returnVoid (hrecur.inlineCleanups hcleanups)

omit hrecur in
theorem missTarget {otherwise : Option Tree} {elseLabel done miss : Label}
    {detour : Option Lowering.Detour}
    (h : Runs (Lowering.missTarget body otherwise elseLabel done) env s (miss, detour) s') :
    Misses s body otherwise elseLabel done miss detour s' := by
  unfold Lowering.missTarget at h
  by_cases hbody : body.endsWithRedirect = true
  · simp only [hbody, if_true, runs_bind, runs_get] at h
    obtain ⟨⟨depth, target⟩, _, htarget, _, _, ⟨rfl, rfl⟩, h⟩ := h
    obtain ⟨⟨flow, hflow, rfl⟩, rfl⟩ := defaultTarget htarget
    by_cases hcleanups : s.firstCleanupInside depth < s.cleanups.length
    · simp only [hcleanups, if_true, runs_bind, runs_newLabel, runs_pure] at h
      obtain ⟨_, _, ⟨rfl, rfl⟩, heq, rfl⟩ := h
      cases heq
      exact .detour hbody hflow hcleanups
    · simp only [hcleanups, if_false, runs_pure] at h
      obtain ⟨heq, rfl⟩ := h
      cases heq
      exact .direct hbody hflow (Nat.le_of_not_lt hcleanups)
  · rw [if_neg hbody] at h
    obtain ⟨heq, rfl⟩ := runs_pure.mp h
    cases heq
    exact .plain (by simpa using hbody)

theorem branch {condition : Tree} {otherwise : Option Tree}
    (h : Runs (Lowering.branch recur condition body otherwise) env s () s') :
    Lowers env (.tree (.branch condition body otherwise)) s s' := by
  simp only [Lowering.branch, runs_bind, runs_newLabel, runs_mark] at h
  obtain ⟨_, _, ⟨rfl, rfl⟩, _, _, ⟨rfl, rfl⟩, _, _, ⟨rfl, rfl⟩, _, _, ⟨rfl, rfl⟩,
    ⟨miss, detour⟩, t, hmiss, _, _, rfl, _, m₁, hcondition, _, _, rfl, _, m₂, hbody, h⟩ := h
  have hrest {m : State}
      (h : Runs (Lowering.elseBranch recur (s.label 2) (s.label 3) otherwise) env m () s') :
      ∃ m', Lowers env (.otherwise (s.label 2) (s.label 3) otherwise) m m' ∧
        s' = m'.emits (.bind (s.label 3)) := by
    cases otherwise with
    | none =>
      obtain rfl := runs_mark.mp h
      exact ⟨m, .noElse, rfl⟩
    | some tree =>
      simp only [Lowering.elseBranch, runs_bind, runs_jump, runs_mark] at h
      obtain ⟨_, _, rfl, _, _, rfl, _, m', htree, rfl⟩ := h
      exact ⟨m', .hasElse (hrecur.inScope htree), rfl⟩
  simp only [State.label_emits_newLabel, Nat.zero_add] at hmiss hbody h
  cases detour with
  | none =>
    obtain ⟨m₄, hotherwise, rfl⟩ := hrest h
    exact .branch (missTarget hmiss) (hrecur.jumpIf hcondition) (hrecur.inScope hbody)
      .noDetour hotherwise
  | some detour =>
    simp only [runs_bind, runs_jump, runs_mark] at h
    obtain ⟨_, _, rfl, _, m₃, hcleanups, _, _, rfl, h⟩ := h
    obtain ⟨m₄, hotherwise, rfl⟩ := hrest h
    exact .branch (missTarget hmiss) (hrecur.jumpIf hcondition) (hrecur.inScope hbody)
      (.detour (hrecur.inlineCleanups hcleanups)) hotherwise

omit hrecur in
theorem newLoopLabels {labels : Lowering.LoopLabels}
    (h : Runs Lowering.newLoopLabels env s labels s') :
    labels = s.loopLabels ∧ s' = s.newLabels 4 := by
  simp only [Lowering.newLoopLabels, runs_bind, runs_newLabel, runs_pure] at h
  obtain ⟨_, _, ⟨rfl, rfl⟩, _, _, ⟨rfl, rfl⟩, _, _, ⟨rfl, rfl⟩, _, _, ⟨rfl, rfl⟩, rfl, rfl⟩ := h
  simp only [State.label_emits_newLabel, Nat.zero_add]
  exact ⟨rfl, rfl⟩

theorem forLoop {init update : List Tree} {condition : Option Tree}
    (h : Runs (Lowering.forLoop recur label init condition update body) env s () s') :
    Lowers env (.tree (.forLoop label init condition update body)) s s' := by
  simp only [Lowering.forLoop, runs_withScope, runs_bind, runs_jump, runs_modify, runs_mark] at h
  obtain ⟨m, ⟨_, m₁, hinit, labels, _, hlabels, _, _, rfl, _, _, rfl, _, _, rfl, _, m₂, hbody,
    _, _, rfl, _, m₃, hupdate, _, _, rfl, _, _, rfl, h⟩, rfl⟩ := h
  obtain ⟨rfl, rfl⟩ := newLoopLabels hlabels
  obtain ⟨m₄, htest, rfl⟩ : ∃ m₄, Lowers env (.loopTest condition m₁.loopLabels.body)
      (m₃.popFlow.emits (.bind m₁.loopLabels.condition)) m₄ ∧
        m = m₄.emits (.bind m₁.loopLabels.exit) := by
    cases condition with
    | some condition =>
      simp only [runs_bind, runs_mark] at h
      obtain ⟨_, m₄, hcondition, rfl⟩ := h
      exact ⟨m₄, .tested (hrecur.jumpIf hcondition), rfl⟩
    | none =>
      simp only [runs_bind, runs_jump, runs_mark] at h
      obtain ⟨_, _, rfl, rfl⟩ := h
      exact ⟨_, .endless, rfl⟩
  exact .forLoop (seq hrecur.statement hinit) (hrecur.inScope hbody)
    (seq hrecur.statement hupdate) htest

theorem whileLoop {condition : Tree} {bodyFirst : Bool}
    (h : Runs (Lowering.whileLoop recur label condition body bodyFirst) env s () s') :
    Lowers env (.tree (.whileLoop label condition body bodyFirst)) s s' := by
  simp only [Lowering.whileLoop, runs_bind] at h
  obtain ⟨labels, _, hlabels, h⟩ := h
  obtain ⟨rfl, rfl⟩ := newLoopLabels hlabels
  cases bodyFirst with
  | true =>
    simp only [if_true, runs_bind, runs_modify, runs_mark] at h
    obtain ⟨_, _, rfl, _, _, rfl, _, m₁, hbody, _, _, rfl, _, _, rfl, _, m₂, htest, rfl⟩ := h
    exact .whileLoop (hrecur.inScope hbody) (hrecur.jumpIf htest)
  | false =>
    simp only [Bool.false_eq_true, if_false, runs_bind, runs_jump, runs_modify, runs_mark] at h
    obtain ⟨_, _, rfl, _, _, rfl, _, _, rfl, _, m₁, hbody, _, _, rfl, _, _, rfl, _, m₂, htest,
      rfl⟩ := h
    exact .whileLoop (hrecur.inScope hbody) (hrecur.jumpIf htest)

theorem forEach {binder : String} {iteration : Iteration} {source : Tree}
    (h : Runs (Lowering.forEach recur label binder ty iteration source body) env s () s') :
    Lowers env (.tree (.forEach label binder ty iteration source body)) s s' := by
  simp only [Lowering.forEach, runs_withSlotScope, runs_bind, runs_resolve] at h
  obtain ⟨m, ⟨ty', _, ⟨hty, rfl⟩, h⟩, rfl⟩ := h
  cases iteration with
  | indexed =>
    simp only [runs_bind, runs_resolve, runs_uniqueName] at h
    obtain ⟨arrayTy, _, ⟨harray, rfl⟩, _, _, ⟨rfl, rfl⟩, _, _, ⟨rfl, rfl⟩, h⟩ := h
    exact .rewritten (.indexed hty harray) (hrecur h)
  | iterator =>
    simp only [runs_bind, runs_uniqueName] at h
    obtain ⟨_, _, ⟨rfl, rfl⟩, h⟩ := h
    exact .rewritten (.iterator hty) (hrecur h)

theorem synchronized {lock : Tree} (h : Runs (Lowering.synchronized recur lock body) env s () s') :
    Lowers env (.tree (.synchronized lock body)) s s' := by
  simp only [Lowering.synchronized, runs_withSlotScope, runs_bind, runs_resolve,
    runs_uniqueName] at h
  obtain ⟨m, ⟨ty, _, ⟨hty, rfl⟩, _, _, ⟨rfl, rfl⟩, h⟩, rfl⟩ := h
  exact .rewritten (.synchronized hty) (hrecur h)

theorem hashedSwitch {kind : SwitchKind} {arms : List Arm} (hkind : kind = .text ∨ kind = .object)
    (h : Runs (Lowering.hashedSwitch recur label kind subject arms) env s () s') :
    Lowers env (.tree (.switch label kind subject arms)) s s' := by
  simp only [Lowering.hashedSwitch, runs_withSlotScope, runs_bind, runs_resolve,
    runs_uniqueName, runs_orFail] at h
  obtain ⟨m, ⟨ty, _, ⟨hty, rfl⟩, _, _, ⟨rfl, rfl⟩, tree, _, ⟨htree, rfl⟩, h⟩, rfl⟩ := h
  exact .rewritten (.hashed hkind hty htree) (hrecur h)

omit hrecur in
theorem ordinalArm {arm ordinal : Arm} (h : Runs (Lowering.ordinalArm arm) env s ordinal s') :
    OrdinalArm env s arm ordinal ∧ s = s' := by
  obtain ⟨value, body⟩ := arm
  unfold Lowering.ordinalArm at h
  split at h
  · rename_i hvalue
    cases hvalue
    obtain ⟨rfl, rfl⟩ := runs_pure.mp h
    exact ⟨.otherwise, rfl⟩
  · rename_i ty name hvalue
    cases hvalue
    simp only [runs_bind, runs_resolve, runs_nest] at h
    obtain ⟨ty', _, ⟨hty, rfl⟩, _, _, ⟨rfl, rfl⟩, h⟩ := h
    split at h
    · rename_i ordinal hordinal
      obtain ⟨rfl, rfl⟩ := runs_pure.mp h
      exact ⟨.constant hty hordinal, rfl⟩
    · exact absurd h runs_throw
  · exact absurd h runs_throw

omit hrecur in
/-- Mapping a step that only reads the state. -/
theorem mapM_read {α β : Type} {action : α → Lower β} {R : α → β → Prop}
    (hstep : ∀ {item : α} {result : β} {s' : State}, Runs (action item) env s result s' →
      R item result ∧ s = s') {items : List α} {results : List β}
    (h : Runs (items.mapM action) env s results s') :
    List.Forall₂ R items results ∧ s = s' := by
  induction items generalizing results with
  | nil =>
    rw [List.mapM_nil] at h
    obtain ⟨rfl, rfl⟩ := runs_pure.mp h
    exact ⟨.nil, rfl⟩
  | cons item rest ih =>
    simp only [List.mapM_cons, runs_bind, runs_pure] at h
    obtain ⟨result, m, hitem, results, m', hrest, rfl, rfl⟩ := h
    obtain ⟨hresult, rfl⟩ := hstep hitem
    obtain ⟨hresults, rfl⟩ := ih hrest
    exact ⟨.cons hresult hresults, rfl⟩

theorem enumSwitch {arms : List Arm}
    (h : Runs (Lowering.enumSwitch recur label subject arms) env s () s') :
    Lowers env (.tree (.switch label .enum subject arms)) s s' := by
  simp only [Lowering.enumSwitch, runs_bind] at h
  obtain ⟨ordinals, m, harms, h⟩ := h
  obtain ⟨hordinals, rfl⟩ := mapM_read ordinalArm harms
  exact .enumSwitch hordinals (hrecur h)

end

theorem intSubject {key : Tree} (h : Runs (Lowering.intSubject subject) env s key s') :
    SubjectKey env s subject key ∧ s = s' := by
  simp only [Lowering.intSubject, runs_bind, runs_resolve] at h
  obtain ⟨ty, _, ⟨hty, rfl⟩, h⟩ := h
  by_cases hprim : ty.prim?.any Prim.isSwitchable = true
  · rw [if_pos hprim] at h
    obtain ⟨rfl, rfl⟩ := runs_pure.mp h
    exact ⟨.plain hty hprim, rfl⟩
  · rw [if_neg hprim] at h
    split at h
    · rename_i prim hbox
      obtain ⟨rfl, rfl⟩ := runs_pure.mp h
      exact ⟨.unboxed hty hprim hbox, rfl⟩
    · exact absurd h runs_throw

theorem armTargets {otherwise : Label} {arms : List (Int32 × Tree)}
    {targets : List (Int32 × Label)}
    (h : Runs (arms.mapM (Lowering.armTarget otherwise)) env s targets s') :
    s.armTargets otherwise arms = (targets, s') := by
  induction arms generalizing s targets with
  | nil =>
    rw [List.mapM_nil] at h
    obtain ⟨rfl, rfl⟩ := runs_pure.mp h
    rfl
  | cons arm rest ih =>
    simp only [List.mapM_cons, runs_bind, runs_pure] at h
    obtain ⟨target, m, harm, targets, m', hrest, rfl, rfl⟩ := h
    unfold Lowering.armTarget at harm
    unfold State.armTargets
    split_ifs at harm ⊢
    · obtain ⟨rfl, rfl⟩ := runs_pure.mp harm
      rw [ih hrest]
    · simp only [runs_bind, runs_newLabel, runs_pure] at harm
      obtain ⟨_, _, ⟨rfl, rfl⟩, rfl, rfl⟩ := harm
      rw [ih hrest]

theorem emitDispatch_eq (encoding : Switch.Encoding) (otherwise : Label)
    (targets : List (Int32 × Label)) : Lowering.emitDispatch encoding otherwise targets =
      emit (dispatchCall encoding otherwise targets).run := by
  unfold Lowering.emitDispatch dispatchCall
  cases encoding with
  | lookup => rfl
  | table =>
    rcases targets.head? with _ | ⟨low, _⟩
    · rfl
    · rcases targets.getLast? with _ | ⟨high, _⟩ <;> rfl

theorem emitDispatch {encoding : Switch.Encoding} {otherwise : Label}
    {targets : List (Int32 × Label)}
    (h : Runs (Lowering.emitDispatch encoding otherwise targets) env s () s') :
    s' = s.emits (dispatchCall encoding otherwise targets) := by
  rw [emitDispatch_eq] at h
  exact runs_emit.mp h

section

variable (hrecur : Derives env recur)

include hrecur

theorem intSwitch {arms : List Arm}
    (h : Runs (Lowering.intSwitch recur label subject arms) env s () s') :
    Lowers env (.tree (.switch label .int subject arms)) s s' := by
  simp only [Lowering.intSwitch, runs_bind, runs_orFail, runs_options] at h
  obtain ⟨key, _, hkey, ⟨keyed, defaultBody⟩, _, ⟨hkeyed, rfl⟩, _, _, ⟨rfl, rfl⟩, dispatched, _,
    ⟨hdispatched, rfl⟩, h⟩ := h
  simp only [runs_newLabel, runs_mark, runs_modify] at h
  obtain ⟨_, _, ⟨rfl, rfl⟩, _, _, ⟨rfl, rfl⟩, _, _, ⟨rfl, rfl⟩, _, _, ⟨rfl, rfl⟩, h⟩ := h
  simp only [State.label_emits_newLabel, Nat.zero_add] at h
  obtain ⟨_, _, rfl, _, _, rfl, _, m₁, hvalue, targets, m₂, htargets, _, _, hdispatch, _, _, rfl,
    _, m₃, harms, _, _, rfl, h⟩ := h
  obtain ⟨hsubject, rfl⟩ := intSubject hkey
  rw [emitDispatch hdispatch] at harms
  obtain ⟨m₄, hdefault, rfl⟩ : ∃ m₄, Lowers env (.seq (defaultBody.toList.map .inScope))
      (m₃.emits (.bind (s.label 2))) m₄ ∧ s' = m₄.popFlow.emits (.bind (s.label 3)) := by
    cases defaultBody with
    | none =>
      simp only [runs_bind, runs_modify, runs_mark] at h
      obtain ⟨_, _, rfl, rfl⟩ := h
      exact ⟨_, .nil, rfl⟩
    | some body =>
      simp only [runs_bind, runs_modify, runs_mark] at h
      obtain ⟨_, m₄, hbody, _, _, rfl, rfl⟩ := h
      exact ⟨m₄, .cons (hrecur.inScope hbody) .nil, rfl⟩
  have harm {pair : (Int32 × Tree) × (Int32 × Label)} {m m' : State}
      (h : Runs (if pair.2.2 = s.label 2 then pure () else do
        mark pair.2.2
        recur.inScope pair.1.2) env m () m') :
      Lowers env (.arm (s.label 2) pair.1 pair.2.2) m m' := by
    split_ifs at h with htarget
    · obtain ⟨_, rfl⟩ := runs_pure.mp h
      rw [htarget]
      exact .sharedArm
    · simp only [runs_bind, runs_mark] at h
      obtain ⟨_, _, rfl, hbody⟩ := h
      exact .arm htarget (hrecur.inScope hbody)
  exact .intSwitch hsubject hkeyed rfl hdispatched (hrecur.value hvalue) (armTargets htargets)
    (seq harm harms) hdefault

theorem switch {kind : SwitchKind} {arms : List Arm}
    (h : Runs (Lowering.switch recur label kind subject arms) env s () s') :
    Lowers env (.tree (.switch label kind subject arms)) s s' := by
  cases kind with
  | int => exact hrecur.intSwitch h
  | enum => exact hrecur.enumSwitch h
  | text => exact hrecur.hashedSwitch (.inl rfl) h
  | object => exact hrecur.hashedSwitch (.inr rfl) h

/-- Catch clauses are lowered in order; each adds the range of its own code. -/
theorem clauses {start stop exit : Label} {cleanupIndex : Nat} {catches : List Catch}
    (h : Runs (catches.mapM (Lowering.catchClause recur start stop exit cleanupIndex)) env s
      ranges s') : Lowers env (.clauses start stop exit cleanupIndex catches ranges) s s' := by
  induction catches generalizing s ranges with
  | nil =>
    rw [List.mapM_nil] at h
    obtain ⟨rfl, rfl⟩ := runs_pure.mp h
    exact .noClauses
  | cons clause rest ih =>
    simp only [List.mapM_cons, runs_bind, runs_pure] at h
    obtain ⟨range, m, hclause, ranges, m', hrest, rfl, rfl⟩ := h
    simp only [Lowering.catchClause, runs_bind, runs_resolve, runs_newLabel, runs_mark,
      runs_emit, runs_withScope, runs_declare, runs_jump, runs_pure] at hclause
    obtain ⟨ty, _, ⟨hty, rfl⟩, _, _, ⟨rfl, rfl⟩, _, _, ⟨rfl, rfl⟩, _, _, rfl, _, _, rfl, _, _,
      ⟨m₁, ⟨slot, _, ⟨slots, hslot, rfl⟩, _, _, rfl, hbody⟩, rfl⟩, _, _, rfl, _, m₂,
      hcleanups, _, _, rfl, rfl, rfl⟩ := hclause
    rw [State.label_emits_newLabel] at hcleanups ⊢
    exact .clause hty hslot (hrecur.statement hbody) (hrecur.inlineCleanups hcleanups)
      (ih hrest)

omit hrecur in
theorem forM_region {handler : Label}
    (h : Runs (ranges.forM fun range => emit (.region range.1 range.2 handler none)) env s ()
      s') : s' = s.emitsAll (ranges.map fun range => .region range.1 range.2 handler none) := by
  induction ranges generalizing s with
  | nil => exact (runs_pure.mp h).2.symm
  | cons range rest ih =>
    obtain ⟨_, m, hrange, hrest⟩ := runs_bind.mp h
    rw [ih hrest, runs_emit.mp hrange]
    rfl

theorem catchAll {cleanup : Tree} (h : Runs (Lowering.catchAll recur ranges cleanup) env s () s') :
    Lowers env (.catchAll (some cleanup) ranges) s s' := by
  simp only [Lowering.catchAll, runs_bind, runs_newLabel, runs_mark, runs_withSlotScope,
    runs_uniqueName, runs_declare, runs_emit, runs_op] at h
  obtain ⟨_, _, ⟨rfl, rfl⟩, _, _, rfl, _, _, hregions, _, ⟨_, _, ⟨rfl, rfl⟩, slot, _,
    ⟨slots, hslot, rfl⟩, _, _, rfl, _, m, hbody, _, _, rfl, rfl⟩, rfl⟩ := h
  have ht := forM_region hregions
  subst ht
  exact .catchAll rfl hslot (hrecur.inScope hbody)

theorem guarded {catches : List Catch} {cleanup : Option Tree}
    (h : Runs (Lowering.guarded recur body catches cleanup) env s () s') :
    Lowers env (.tree (.guarded body catches cleanup)) s s' := by
  simp only [Lowering.guarded, runs_bind, runs_newLabel, runs_get] at h
  obtain ⟨_, _, ⟨rfl, rfl⟩, _, _, ⟨rfl, rfl⟩, _, _, ⟨rfl, rfl⟩, _, _, ⟨rfl, rfl⟩, h⟩ := h
  simp only [State.label_emits_newLabel, Nat.zero_add] at h
  cases cleanup with
  | none =>
    simp only [runs_bind, runs_mark, runs_jump, Option.isSome_none, Bool.false_eq_true,
      if_false] at h
    obtain ⟨_, _, rfl, _, m₁, hbody, _, _, rfl, _, m₂, hcleanups, _, _, rfl, ranges, m₃,
      hclauses, rfl⟩ := h
    exact .guarded (hrecur.inScope hbody) (hrecur.inlineCleanups hcleanups)
      (hrecur.clauses hclauses) .noCatchAll
  | some tree =>
    simp only [runs_bind, runs_modify, runs_modifyGet, runs_mark, runs_jump,
      Option.isSome_some, if_true] at h
    obtain ⟨_, _, rfl, _, _, rfl, _, m₁, hbody, _, _, rfl, _, m₂, hcleanups, _, _, rfl, ranges,
      m₃, hclauses, pending?, t, hpending, h⟩ := h
    obtain ⟨hlast, rfl⟩ := Prod.mk.inj hpending
    obtain ⟨m₄, hcatchAll, rfl⟩ : ∃ m₄, Lowers env
        (.catchAll (m₃.pending? (some tree)) ((s.label 0, s.label 1) :: ranges))
          (m₃.popCleanup? (some tree)) m₄ ∧ s' = m₄.emits (.bind (s.label 2)) := by
      have hpending : m₃.pending? (some tree) = pending?.map Cleanup.body :=
        congrArg (Option.map Cleanup.body) hlast
      rw [hpending]
      cases pending? with
      | none =>
        obtain rfl := runs_mark.mp h
        exact ⟨_, .noCatchAll, rfl⟩
      | some pending =>
        simp only [runs_bind, runs_mark] at h
        obtain ⟨_, m₄, hcatchAll, rfl⟩ := h
        exact ⟨m₄, hrecur.catchAll hcatchAll, rfl⟩
    exact .guarded (hrecur.inScope hbody) (hrecur.inlineCleanups hcleanups)
      (hrecur.clauses hclauses) hcatchAll

omit hrecur in
theorem declareParam {param : Param} (h : Runs (Lowering.declareParam param) env s () s') :
    Lowers env (.param param) s s' := by
  simp only [Lowering.declareParam, runs_bind, runs_resolve, runs_declare, runs_pure] at h
  obtain ⟨ty, _, ⟨hty, rfl⟩, slot, _, ⟨slots, hslot, rfl⟩, _, rfl⟩ := h
  exact .param hty hslot

omit hrecur in
theorem forM_reserve {names : List String} (h : Runs (names.forM reserve) env s () s') :
    s' = s.reserveAll names := by
  induction names generalizing s with
  | nil => exact (runs_pure.mp h).2.symm
  | cons name rest ih =>
    obtain ⟨_, m, hname, hrest⟩ := runs_bind.mp h
    rw [ih hrest, runs_reserve.mp hname]
    rfl

theorem routineBody (h : Runs (Lowering.routineBody recur decl) env s () s') :
    Lowers env (.body decl) s s' := by
  simp only [Lowering.routineBody, runs_bind] at h
  obtain ⟨_, t, hreserve, _, t', hparams, _, m, hbody, h⟩ := h
  obtain rfl := forM_reserve hreserve
  have hresult : s' = m.emitsAll (if decl.result.isVoid && !decl.body.endsInTransfer then
      [.op .returnVoid] else []) := by
    split_ifs at h ⊢
    · exact runs_op.mp h
    · exact (runs_pure.mp h).2.symm
  rw [hresult]
  exact .body (seq declareParam hparams) (hrecur.statement hbody)

theorem routine_runs {shared shared' : Shared} {result : Routine × List Routine}
    (h : Lowering.routine recur decl env shared = (.ok result, shared')) :
    ∃ t output, Runs (Lowering.routineBody recur decl) env (.initial env.nest shared decl.info) () t ∧
      Lowers env (.body decl) (.initial env.nest shared decl.info) t ∧
      t.finish = .ok output ∧ result = Lowering.assembleRoutine decl output ∧
      shared' = t.shared := by
  obtain ⟨t, output, hrun, houtput, hresult, hshared⟩ := Lowering.routine_eq_ok.mp h
  exact ⟨t, output, hrun, hrecur.routineBody hrun, houtput, hresult, hshared⟩

theorem routine {shared shared' : Shared} {result : Routine × List Routine}
    (h : Lowering.routine recur decl env shared = (.ok result, shared')) :
    ∃ t output, Lowers env (.body decl) (.initial env.nest shared decl.info) t ∧
      t.finish = .ok output ∧ result = Lowering.assembleRoutine decl output ∧
      shared' = t.shared := by
  obtain ⟨t, output, _, hrest⟩ := hrecur.routine_runs h
  exact ⟨t, output, hrest⟩

theorem localRoutine {method : Method} (h : Runs (Lowering.localRoutine recur method) env s () s') :
    Lowers env (.tree (.localRoutine method)) s s' := by
  cases hdecl : RoutineDecl.ofMethod? s.currentType method with
  | none =>
    rw [(Lowering.runs_localRoutine_bodiless hdecl).mp h]
    exact .bodiless hdecl
  | some decl =>
    obtain ⟨lowered, nested, shared, hroutine, rfl⟩ := (Lowering.runs_localRoutine hdecl).mp h
    obtain ⟨t, output, hbody, houtput, hassemble, rfl⟩ := hrecur.routine hroutine
    cases hassemble
    exact .localRoutine hdecl hbody houtput

/-- Every standard handler lowers its tree by a derivation. -/
theorem tree {tree : Tree}
    (h : Runs (Lowering.tree recur tree) env s () s') : Lowers env (.tree tree) s s' := by
  cases tree with
  | block trees => exact .block (seq hrecur h)
  | declareLocal name ty value => exact hrecur.declareLocal h
  | readField owner name ty receiver =>
    simp only [Lowering.tree, Lowering.readField_eq, runs_bind, runs_resolve] at h
    obtain ⟨_, _, ⟨howner, rfl⟩, _, _, ⟨hty, rfl⟩, h⟩ := h
    exact hrecur.access (.readField howner hty) h
  | invoke kind owner method receiver args =>
    simp only [Lowering.tree, Lowering.invoke_eq, runs_bind, runs_resolve,
      runs_resolveSignature] at h
    obtain ⟨_, _, ⟨howner, rfl⟩, _, _, ⟨hmethod, rfl⟩, _, _, hcheck, h⟩ := h
    obtain ⟨hadmits, rfl⟩ := runs_checkInvocation.mp hcheck
    exact hrecur.access (.invoke howner hmethod hadmits) h
  | create ty params args =>
    simp only [Lowering.tree, Lowering.create_eq, runs_bind, runs_resolve, runs_resolveAll] at h
    obtain ⟨_, _, ⟨hty, rfl⟩, _, _, ⟨hparams, rfl⟩, h⟩ := h
    exact hrecur.access (.create hty hparams) h
  | logical op left right => exact hrecur.logical h
  | branch condition body otherwise => exact hrecur.branch h
  | forLoop label init condition update body => exact hrecur.forLoop h
  | whileLoop label condition body bodyFirst => exact hrecur.whileLoop h
  | forEach label binder ty iteration source body => exact hrecur.forEach h
  | switch label kind subject arms => exact hrecur.switch h
  | synchronized lock body => exact hrecur.synchronized h
  | guarded body catches cleanup => exact hrecur.guarded h
  | ret value => exact hrecur.ret h
  | breakTo label => exact hrecur.breakTo h
  | continueTo label => exact hrecur.continueTo h
  | redirect => exact hrecur.redirect h
  | localRoutine decl => exact hrecur.localRoutine h
  | _ => exact hrecur.operation rfl h

end

theorem run (env : Env) (depth : Nat) : Derives env (Handlers.standard.run depth) := by
  induction depth with
  | zero =>
    intro tree s s' h
    exact absurd h runs_throw
  | succ depth ih =>
    intro tree s s' h
    rw [Handlers.run_succ] at h
    exact ih.tree h

theorem process (env : Env) : Derives env Handlers.standard.process := by
  intro tree s s' h
  simp only [Handlers.process, runs_bind, runs_nest, runs_get] at h
  obtain ⟨_, _, ⟨rfl, rfl⟩, _, _, ⟨rfl, rfl⟩, h⟩ := h
  exact run env _ h

end Derives

end StackLowering
