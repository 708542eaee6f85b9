import StackLowering.Proofs.Mirroring
/-!
The standard handlers do not depend on how a tree names its types. Each handler
resolves the types it reads, so what it does with a tree it also does with the
tree in which the roles are written out, and so neither does the lowering of any
tree. Nothing but the type in which a returned value is kept depends on it, and
no tree mentions that variable.
-/

namespace StackLowering

open Lower

/-- Trees that differ in how they name their types are lowered alike. -/
def Setting.Faithful (S : Setting) (recur : Recur) : Prop :=
  ∀ tree other, S.Same tree other → S.Mirrors Eq (recur tree) (recur other)

namespace Setting

variable {S : Setting} {recur : Recur}

theorem forall₂_plain {trees : List Tree} (h : ∀ tree ∈ trees, S.Clear tree) :
    List.Forall₂ S.Same trees (trees.map S.plain) := by
  rw [List.forall₂_map_right_iff, List.forall₂_same]
  intro tree htree
  exact (h tree htree).same

theorem rel_plain {tree? : Option Tree} (h : ∀ tree ∈ tree?, S.Clear tree) :
    Option.Rel S.Same tree? (tree?.map S.plain) := by
  cases tree? with
  | none => exact .none
  | some tree => exact .some (h tree rfl).same

section Arms

open Switch

/-- The arm with the roles written out. -/
def plainArm (S : Setting) : Arm → Arm := Arm.mapTypes S.plainTy

theorem sameArm_plain {arm : Arm} (h : ∀ part ∈ arm.trees, S.Clear part) :
    SameArm S.Same S.Same arm (S.plainArm arm) := by
  obtain ⟨value, body⟩ := arm
  simp only [ArmOf.trees, List.forall_mem_append, Option.mem_toList,
    List.forall_mem_singleton] at h
  exact ⟨rel_plain h.1, h.2.same⟩

theorem sameValue_plain (value : Tree) : SameValue value (S.plain value) := by
  cases value with
  | literal literal =>
    cases literal with
    | classOf ty =>
      refine .unhashed ?_ ?_ <;>
        · rintro _ ⟨⟩
          rfl
    | _ => exact .refl _
  | _ =>
    refine .unhashed ?_ ?_ <;>
      · intro literal hliteral
        cases hliteral

theorem rel_sameValue (arm : Arm) : Option.Rel SameValue arm.value (S.plainArm arm).value := by
  obtain ⟨_ | value, body⟩ := arm
  · exact .none
  · exact .some (sameValue_plain value)

theorem Same.isPureRedirect {tree other : Tree} (h : S.Same tree other) :
    tree.isPureRedirect = other.isPureRedirect := by
  rw [← Tree.isPureRedirect_mapTypes (f := S.plainTy) tree,
    ← Tree.isPureRedirect_mapTypes (f := S.plainTy) other]
  exact congrArg Tree.isPureRedirect h.plain

theorem rel_same {tree? tree?' : Option Tree} (h : Option.Rel S.Same tree? tree?') :
    (∀ part ∈ tree?, S.Clear part) ∧ tree?.map S.plain = tree?'.map S.plain := by
  cases h with
  | none => simp
  | some h => exact ⟨by simpa using h.clear, congrArg some h.plain⟩

theorem same_invoke (kind : InvokeKind) (owner : Ty) (method : Signature)
    {receiver receiver' : Option Tree} (hreceiver : Option.Rel S.Same receiver receiver')
    {args args' : List Tree} (h : List.Forall₂ S.Same args args') :
    S.Same (.invoke kind owner method receiver args) (.invoke kind owner method receiver' args') := by
  obtain ⟨hclear, hplain⟩ := rel_same hreceiver
  refine ⟨Tree.everywhere_invoke.mpr ⟨List.forall_mem_nil _, hclear, forall_clear h⟩, ?_⟩
  simp only [plain, Tree.mapTypes, Tree.mapTypesOption_eq, Tree.mapTypesList_eq]
  exact congrArg₂ (Tree.invoke _ _ _) hplain (map_plain h)

theorem same_switch (label : Option String) (kind : SwitchKind) {subject subject' : Tree}
    (hsubject : S.Same subject subject') {arms arms' : List Arm}
    (harms : List.Forall₂ (SameArm S.Same S.Same) arms arms') :
    S.Same (.switch label kind subject arms) (.switch label kind subject' arms') := by
  have ⟨hclear, hplain⟩ : (∀ arm ∈ arms, (∀ part ∈ arm.value, S.Clear part) ∧ S.Clear arm.body) ∧
      arms.map S.plainArm = arms'.map S.plainArm := by
    induction harms with
    | nil => exact ⟨List.forall_mem_nil _, rfl⟩
    | cons harm _ ih =>
      obtain ⟨hvalue, hplain⟩ := rel_same harm.value
      exact ⟨List.forall_mem_cons.mpr ⟨⟨hvalue, harm.body.clear⟩, ih.1⟩,
        congrArg₂ List.cons (congrArg₂ ArmOf.mk hplain harm.body.plain) ih.2⟩
  refine ⟨Tree.everywhere_switch.mpr ⟨List.forall_mem_nil _, hsubject.clear, hclear⟩, ?_⟩
  rw [plain, Tree.mapTypes, Tree.mapTypes, Tree.mapTypesArms_eq, Tree.mapTypesArms_eq]
  exact congrArg₂ (Tree.switch label kind) hsubject.plain hplain

theorem composes_same : Composes S.Same where
  isEmpty := by
    intro body body' h
    rw [← Tree.isEmpty_mapTypes (f := S.plainTy) body, ← Tree.isEmpty_mapTypes (f := S.plainTy) body']
    exact congrArg Tree.isEmpty h.plain
  literal _ := Clear.refl (Tree.everywhere_literal.mpr (List.forall_mem_nil _))
  leave := Clear.refl (Tree.everywhere_breakTo.mpr (List.forall_mem_nil _))
  redirect := Clear.refl (Tree.everywhere_redirect.mpr (List.forall_mem_nil _))
  cast ty _ _ h := ⟨.intro (List.forall_mem_nil _) (List.forall_mem_singleton.mpr h.clear),
    congrArg (Tree.cast _) h.plain⟩
  or h h' := ⟨by simp [Tree.ownNames, h.clear, h'.clear],
    congrArg₂ (Tree.logical .or) h.plain h'.plain⟩
  not h := ⟨.intro (List.forall_mem_nil _) (List.forall_mem_singleton.mpr h.clear),
    congrArg Tree.not h.plain⟩
  block h := ⟨.intro (List.forall_mem_nil _) (forall_clear h), by
    simpa [plain, Tree.mapTypes] using map_plain h⟩
  branch h h' h'' := by
    obtain ⟨hclear, hplain⟩ := rel_same h''
    refine ⟨Tree.everywhere_branch.mpr ⟨List.forall_mem_nil _, h.clear, h'.clear, hclear⟩, ?_⟩
    simp only [plain, Tree.mapTypes, Tree.mapTypesOption_eq]
    exact congr (congrArg₂ Tree.branch h.plain h'.plain) hplain
  call kind owner method _ _ _ _ h := same_invoke kind owner method (.some h)
  switch label kind _ _ _ _ h harms := same_switch label kind h harms

end Arms

section Cleanups

variable {tree other : Tree}

theorem mirrors_pushCleanup (h : S.Same tree other) :
    S.Mirrors Eq (modify (State.pushCleanup tree)) (modify (State.pushCleanup other)) := by
  apply Lower.Mirrors.modify
  intro s t hst
  apply hst.withCleanups
  · simp only [List.map_append, List.map_singleton, plainCleanup, h.plain, hst.cleanups,
      hst.flows]
  · exact List.forall_mem_append.mpr
      ⟨hst.first.cleanups, List.forall_mem_singleton.mpr h.clear⟩
  · exact List.forall_mem_append.mpr
      ⟨hst.second.cleanups, List.forall_mem_singleton.mpr h.symm.clear⟩

/-- Cleanups that correspond, one by one, have corresponding bodies. -/
theorem forall₂_cleanups {cleanups cleanups' : List Cleanup}
    (h : cleanups.map S.plainCleanup = cleanups'.map S.plainCleanup)
    (hclear : ∀ cleanup ∈ cleanups, S.Clear cleanup.body) :
    List.Forall₂ (fun cleanup cleanup' => S.Same cleanup.body cleanup'.body) cleanups
      cleanups' := by
  induction cleanups generalizing cleanups' with
  | nil =>
    obtain rfl := List.map_eq_nil_iff.mp h.symm
    exact .nil
  | cons cleanup rest ih =>
    obtain ⟨cleanup', rest', rfl, hfirst, hrest⟩ := List.map_eq_cons_iff.mp h.symm
    obtain ⟨hcleanup, hclear⟩ := List.forall_mem_cons.mp hclear
    exact .cons ⟨hcleanup, (congrArg Cleanup.body hfirst).symm⟩ (ih hrest.symm hclear)

theorem mirrors_popCleanup :
    S.Mirrors (Option.Rel fun cleanup cleanup' => S.Same cleanup.body cleanup'.body)
      (modifyGet State.popCleanup) (modifyGet State.popCleanup) := by
  apply Lower.Mirrors.modifyGet
  intro s t hst
  refine ⟨Switch.forall₂_getLast? (forall₂_cleanups hst.cleanups hst.first.cleanups), ?_⟩
  apply hst.withCleanups
  · rw [List.map_dropLast, List.map_dropLast, hst.cleanups]
  · intro cleanup hmem
    exact hst.first.cleanups cleanup (List.mem_of_mem_dropLast hmem)
  · intro cleanup hmem
    exact hst.second.cleanups cleanup (List.mem_of_mem_dropLast hmem)

theorem Faithful.inlineCleanup (h : S.Faithful recur) (index : Nat) :
    S.Mirrors Eq (Lowering.inlineCleanup recur index) (Lowering.inlineCleanup recur index) := by
  intro s t hst
  have hfirst : ∀ cleanup ∈ s.cleanups.drop index, S.Clear cleanup.body :=
    fun cleanup hmem => hst.first.cleanups cleanup (List.mem_of_mem_drop hmem)
  have hsecond : ∀ cleanup ∈ t.cleanups.drop index, S.Clear cleanup.body :=
    fun cleanup hmem => hst.second.cleanups cleanup (List.mem_of_mem_drop hmem)
  have htaken : (s.cleanups.drop index).map S.plainCleanup =
      (t.cleanups.drop index).map S.plainCleanup := by
    rw [List.map_drop, List.map_drop, hst.cleanups]
  have hbodies := forall₂_cleanups htaken hfirst
  have hinner : S.Alike (s.takeCleanups index).2 (t.takeCleanups index).2 := by
    apply hst.withCleanups
    · rw [List.map_take, List.map_take, hst.cleanups]
    · exact fun cleanup hmem => hst.first.cleanups cleanup (List.mem_of_mem_take hmem)
    · exact fun cleanup hmem => hst.second.cleanups cleanup (List.mem_of_mem_take hmem)
  refine Lower.Mirrors.bracket (fun _ _ _ => hinner) (fun m m' hm => ?_) ?_ s t hst
  · apply hm.withCleanups
    · rw [List.map_append, List.map_append, hm.cleanups]
      exact congrArg _ htaken
    · exact List.forall_mem_append.mpr ⟨hm.first.cleanups, hfirst⟩
    · exact List.forall_mem_append.mpr ⟨hm.second.cleanups, hsecond⟩
  · change S.Mirrors Eq (Lowering.copyFirst recur (s.cleanups.drop index))
      (Lowering.copyFirst recur (t.cleanups.drop index))
    generalize s.cleanups.drop index = taken at hbodies
    generalize t.cleanups.drop index = taken' at hbodies
    cases hbodies with
    | nil => exact .pure rfl
    | cons hbody _ => exact Mirrors.withScope (Mirrors.inStatement (h _ _ hbody))

theorem via_inCleanup {α : Type} {first second : Lower α} (htree : S.Same tree other)
    (h : S.Mirrors Eq first second) :
    S.mirroring.closing.Via (fun region region' => region.1 = region'.1 ∧
        Option.Rel (fun pending pending' => S.Same pending.body pending'.body) region.2 region'.2)
      (inCleanup tree first) (inCleanup other second) := by
  intro next next' hnext
  apply Lower.Mirrors.bind _ hnext
  apply (mirrors_pushCleanup htree).seq
  apply h.andThen
  intro value
  apply mirrors_popCleanup.bind
  intro pending pending' hpending
  exact .pure ⟨rfl, hpending⟩

theorem Faithful.related (h : S.Faithful recur) :
    Recur.Related S.mirroring S.Same recur recur where
  value := fun hsame => Mirrors.inExpression (h _ _ hsame)
  statement := fun hsame => Mirrors.inStatement (h _ _ hsame)
  cleanup := h.inlineCleanup
  type := fun hsame => mirrors_valueType hsame.plain

end Cleanups

section Operands

theorem plainTy_eq_int {ty : Ty} : S.plainTy ty = Ty.int ↔ ty = Ty.int := by
  have hint (ty : Ty) : ty = Ty.int ↔ ty.prim? = some .int := by
    cases ty <;> simp [Ty.int, Ty.prim?]
  rw [hint, hint, prim?_plainTy]

theorem readsInt_plain (name : String) (tree : Tree) :
    Lowering.readsInt name (S.plain tree) = Lowering.readsInt name tree := by
  cases tree with
  | readLocal other ty =>
    change (other == name && S.plainTy ty == Ty.int) = (other == name && ty == Ty.int)
    rw [Bool.eq_iff_iff, Bool.and_eq_true, Bool.and_eq_true, beq_iff_eq, beq_iff_eq, beq_iff_eq,
      plainTy_eq_int]
  | _ => rfl

theorem addedConstant?_of_ne_int (name : String) (op : ArithOp) (left right : Tree) {ty : Ty}
    (hty : ty ≠ Ty.int) : Lowering.addedConstant? name (.arith op ty left right) = none := by
  unfold Lowering.addedConstant?
  split
  · rename_i heq
    cases heq
    exact absurd rfl hty
  · rfl

theorem addedConstant?_int_plain (name : String) (op : ArithOp) (left right : Tree) :
    Lowering.addedConstant? name (.arith op Ty.int (S.plain left) (S.plain right)) =
      Lowering.addedConstant? name (.arith op Ty.int left right) := by
  -- The operand that is not the variable, if there is one.
  have hoperand : (if Lowering.readsInt name left then some (S.plain right)
      else if op.isCommutative && Lowering.readsInt name right then some (S.plain left)
      else none) = (if Lowering.readsInt name left then some right
      else if op.isCommutative && Lowering.readsInt name right then some left
      else none).map S.plain := by
    split_ifs <;> rfl
  simp only [Lowering.addedConstant?, Ty.int, readsInt_plain]
  rw [hoperand]
  generalize (if Lowering.readsInt name left then some right else _) = operand
  cases operand with
  | none => rfl
  | some operand =>
    cases op with
    | add | sub =>
      cases operand with
      | literal value => cases value <;> rfl
      | _ => rfl
    | _ => rfl

theorem addedConstant?_plain (name : String) (value : Tree) :
    Lowering.addedConstant? name (S.plain value) = Lowering.addedConstant? name value := by
  cases value with
  | arith op ty left right =>
    by_cases hty : ty = Ty.int
    · subst hty
      exact addedConstant?_int_plain name op left right
    · have hplain : S.plainTy ty ≠ Ty.int := fun hint => hty (plainTy_eq_int.mp hint)
      rw [addedConstant?_of_ne_int _ _ _ _ hty]
      exact addedConstant?_of_ne_int name op _ _ hplain
  | _ => rfl

theorem mirrors_comparedType {left right : Tree} (hleft : S.Clear left) (hright : S.Clear right) :
    S.Mirrors Eq (resolve (Lowering.comparedType left right))
      (resolve (Lowering.comparedType (S.plain left) (S.plain right))) := by
  have hcases : (Lowering.comparedType left right = right.valueType ∧
        Lowering.comparedType (S.plain left) (S.plain right) = (S.plain right).valueType) ∨
      (Lowering.comparedType left right = left.valueType ∧
        Lowering.comparedType (S.plain left) (S.plain right) = (S.plain left).valueType) := by
    cases left with
    | literal value =>
      cases value with
      | null => exact .inl ⟨rfl, rfl⟩
      | _ => exact .inr ⟨rfl, rfl⟩
    | _ => exact .inr ⟨rfl, rfl⟩
  rcases hcases with ⟨hfirst, hsecond⟩ | ⟨hfirst, hsecond⟩
  · rw [hfirst, hsecond]
    exact mirrors_valueType hright.same.plain
  · rw [hfirst, hsecond]
    exact mirrors_valueType hleft.same.plain

/-- An operation on the trees with the roles written out. -/
structure SameOperation (S : Setting) (operation operation' : Operation) : Prop where
  first : operation'.first = operation.first
  operands : operation'.operands = operation.operands.map S.plain
  last : operation'.last = operation.last
  result : operation.result.prim? = operation'.result.prim?

theorem mirrors_operation {node : Tree} (hclear : S.Clear node) (hnode : node.isOperation = true) :
    S.Mirrors S.SameOperation (Lowering.operation node) (Lowering.operation (S.plain node)) := by
  obtain ⟨hname, hpart⟩ := clear_iff.mp hclear
  cases node with
  | literal value =>
    cases value with
    | classOf ty => exact (mirrors_resolve ty).andThen fun _ => .pure ⟨rfl, rfl, rfl, rfl⟩
    | _ => exact .pure ⟨rfl, rfl, rfl, rfl⟩
  | dup ty =>
    have hprim : ty.prim? = (S.plainTy ty).prim? := (prim?_plainTy ty).symm
    refine .pure ⟨rfl, rfl, ?_, hprim⟩
    rw [Ty.width_congr hprim]
  | readLocal name ty =>
    have hname := hname name (by simp [Tree.ownNames])
    exact (mirrors_resolve ty).andThen fun _ => (mirrors_require hname _ _ _).andThen fun _ =>
      .pure ⟨rfl, rfl, rfl, rfl⟩
  | assignLocal name ty value =>
    simp only [Tree.ownNames, List.mem_singleton, forall_eq] at hname
    refine (mirrors_resolve ty).andThen fun resolved => (mirrors_require hname _ _ _).andThen
      fun _ => Lower.Mirrors.options.andThen fun options => .pure ?_
    have hfused : Lowering.fusedDelta? name resolved (value.mapTypes S.plainTy) =
        Lowering.fusedDelta? name resolved value := by
      change Lowering.fusedDelta? name resolved (S.plain value) = _
      rw [Lowering.fusedDelta?, Lowering.fusedDelta?, addedConstant?_plain]
    rw [hfused]
    cases if options.fuseUpdates then Lowering.fusedDelta? name resolved value else none <;>
      exact ⟨rfl, rfl, rfl, rfl⟩
  | arith operator ty left right =>
    refine (mirrors_resolve ty).andThen fun ty => ?_
    cases operator.opcode? ty.category with
    | none => exact .throw _ _
    | some opcode => exact .pure ⟨rfl, rfl, rfl, rfl⟩
  | compare operator left right =>
    simp only [Tree.children, List.forall_mem_cons] at hpart
    refine (mirrors_comparedType hpart.1 hpart.2.1).andThen fun ty => ?_
    cases operator.opcode? ty.category with
    | none => exact .throw _ _
    | some opcode => exact .pure ⟨rfl, rfl, rfl, rfl⟩
  | cast ty value | arrayLoad value _ ty =>
    have hvalue : S.Clear value := hpart value (by simp [Tree.children])
    exact (mirrors_resolve ty).andThen fun _ => (mirrors_valueType hvalue.same.plain).andThen
      fun _ => .pure ⟨rfl, rfl, rfl, rfl⟩
  | writeField owner name ty receiver value =>
    refine (mirrors_resolve owner).andThen fun _ => .pure ?_
    cases receiver <;> exact ⟨rfl, rfl, rfl, rfl⟩
  | enumConstant ty | instanceOf ty | newArray ty =>
    exact (mirrors_resolve ty).andThen fun _ => .pure ⟨rfl, rfl, rfl, rfl⟩
  | self | nothing | not | arrayLength | arrayStore | raise | monitorEnter | monitorExit =>
    exact .pure ⟨rfl, rfl, rfl, rfl⟩
  | _ => cases hnode

theorem Faithful.operation (h : S.Faithful recur) {node : Tree} (hclear : S.Clear node)
    (hnode : node.isOperation = true) :
    S.Mirrors Eq (Lowering.tree recur node) (Lowering.tree recur (S.plain node)) := by
  have hplain : (S.plain node).isOperation = true := by cases node <;> exact hnode
  have hparts := (clear_iff.mp hclear).2
  rw [Lowering.tree_eq_operation _ hnode, Lowering.tree_eq_operation _ hplain]
  refine (mirrors_operation hclear hnode).yields.bind ?_
  rintro operation operation' ⟨hsame, s, _, -, hrun⟩
  have hoperates := (Lowering.runs_operation hnode hrun).1
  refine h.related.perform (E := S.mirroring.closing) ?_ hsame.first hsame.last hoperates.inner
    (mirrors_discard hsame.result)
  rw [hsame.operands]
  exact forall₂_plain fun part hpart => hparts part (hoperates.operands_subset part hpart)

/-- Conditions are made of tests in the same way. -/
theorem Clear.sameTest {condition : Tree} (h : S.Clear condition) :
    Tree.SameTest S.Same condition (S.plain condition) := by
  suffices htests : ∀ (recur : Recur) (sense : Bool) (target : Label),
      Tree.SameTest S.Same condition (S.plain condition) from htests (fun _ => pure ()) true ⟨0⟩
  intro recur sense target
  fun_induction Lowering.jumpIf recur condition sense target with
  | case1 operator left right target ihleft ihright =>
    obtain ⟨-, hleft, hright⟩ := Tree.everywhere_logical.mp h
    exact .logical (ihleft hleft) (ihright hright)
  | case2 operator left right sense target _ ihleft ihright =>
    obtain ⟨-, hleft, hright⟩ := Tree.everywhere_logical.mp h
    exact .logical (ihleft target hleft) (ihright hright)
  | case3 operand sense target ih => exact .not (ih (Tree.everywhere_not.mp h).2)
  | case4 | case5 => exact .literal _
  | case6 condition sense target hlogical hnot hliteral =>
    refine .value h.same ⟨hlogical, hnot, hliteral⟩ ?_
    cases condition with
    | logical operator left right => exact (hlogical operator left right rfl).elim
    | not operand => exact (hnot operand rfl).elim
    | literal literal =>
      cases literal with
      | bool value => exact (hliteral value rfl).elim
      | _ => refine ⟨fun _ _ _ h => ?_, fun _ h => ?_, fun _ h => ?_⟩ <;> cases h
    | _ => refine ⟨fun _ _ _ h => ?_, fun _ h => ?_, fun _ h => ?_⟩ <;> cases h

end Operands

section Members

variable {receiver : Option Tree} {args args' : List Tree}

theorem same_create (ty : Ty) (params : List Ty) (h : List.Forall₂ S.Same args args') :
    S.Same (.create ty params args) (.create ty params args') := by
  constructor
  · exact .intro (List.forall_mem_nil _) (forall_clear h)
  · have hplain := map_plain h
    simpa [plain, Tree.mapTypes] using hplain

theorem same_receiver (h : ∀ part ∈ receiver, S.Clear part) :
    S.Same (receiver.getD .self) ((receiver.map S.plain).getD .self) := by
  cases receiver with
  | none => exact Clear.refl (Tree.everywhere_self.mpr (List.forall_mem_nil _))
  | some receiver => exact (h receiver rfl).same

/-- The same bridge is used in place of both accesses. -/
def SameUse (S : Setting) (access access' : Tree) : Prop :=
  ∀ bridges : Bridges, Option.Rel (fun use use' => S.Same use.1 use'.1 ∧ use.2 = use'.2)
    (bridges.access? S.env.nest S.owner access) (bridges.access? S.env.nest S.owner access')

theorem rel_bind {α β γ : Type} {R : β → γ → Prop} {found : Option α} {next : α → Option β}
    {next' : α → Option γ} (h : ∀ value, Option.Rel R (next value) (next' value)) :
    Option.Rel R (found >>= next) (found >>= next') := by
  cases found with
  | none => exact .none
  | some value => exact h value

theorem sameUse_readField (owner : Ty) (name : String) (ty : Ty)
    (h : ∀ part ∈ receiver, S.Clear part) :
    S.SameUse (.readField owner name ty receiver)
      (.readField owner name ty (receiver.map S.plain)) := by
  intro bridges
  apply rel_bind
  intro field
  apply rel_bind
  intro _
  apply rel_bind
  rintro ⟨decl, after⟩
  refine .some ⟨same_invoke _ _ _ .none ?_, rfl⟩
  split_ifs
  · exact .nil
  · exact .cons (same_receiver h) .nil

theorem sameUse_invoke (kind : InvokeKind) (owner : Ty) (method : Signature)
    (h : ∀ part ∈ receiver, S.Clear part) (hargs : ∀ part ∈ args, S.Clear part) :
    S.SameUse (.invoke kind owner method receiver args)
      (.invoke kind owner method (receiver.map S.plain) (args.map S.plain)) := by
  intro bridges
  apply rel_bind
  intro found
  apply rel_bind
  intro _
  apply rel_bind
  rintro ⟨decl, after⟩
  refine .some ⟨same_invoke _ _ _ .none ?_, rfl⟩
  split_ifs
  · exact forall₂_plain hargs
  · exact .cons (same_receiver h) (forall₂_plain hargs)

theorem sameUse_create (ty : Ty) (params : List Ty) (hargs : ∀ part ∈ args, S.Clear part) :
    S.SameUse (.create ty params args) (.create ty params (args.map S.plain)) := by
  intro bridges
  apply rel_bind
  intro found
  apply rel_bind
  intro _
  apply rel_bind
  rintro ⟨decl, after⟩
  refine .some ⟨same_create _ _ ?_, rfl⟩
  exact List.rel_append (forall₂_plain hargs) (.cons (composes_same.literal _) .nil)

theorem mirrors_bridged {access access' : Tree} (h : S.SameUse access access') :
    S.Mirrors (Option.Rel S.Same) (bridged access) (bridged access') := by
  suffices hbridged : S.Mirrors (Option.Rel S.Same) (modifyGet (State.bridged S.env access))
      (modifyGet (State.bridged S.env access')) from hbridged
  apply Lower.Mirrors.modifyGet
  intro s t hst
  have huse := h t.bridges
  unfold State.bridged
  rw [hst.first.owner, hst.second.owner, hst.bridges]
  split_ifs
  · generalize t.bridges.access? S.env.nest S.owner access = use at huse
    generalize t.bridges.access? S.env.nest S.owner access' = use' at huse
    cases huse with
    | none => exact ⟨.none, hst⟩
    | @some use use' hsame =>
      obtain ⟨tree, bridges⟩ := use
      obtain ⟨tree', bridges'⟩ := use'
      obtain ⟨hsame, rfl⟩ := hsame
      exact ⟨.some hsame, hst.withBridges bridges⟩
  · exact ⟨.none, hst⟩

theorem Faithful.access (h : S.Faithful recur) {access access' : Tree}
    (huse : S.SameUse access access')
    (hclear : ∀ part ∈ (directAccess access).operands, S.Clear part)
    (hdirect : directAccess access' = { directAccess access with
      operands := (directAccess access).operands.map S.plain }) :
    S.mirroring.closing.Ends (Lowering.access recur access) (Lowering.access recur access') := by
  refine Recur.Related.access (fun hnext => ?_) ?_
  · refine Lower.Mirrors.bind (mirrors_bridged huse) fun use use' hsame => hnext _ _ ?_
    cases hsame with
    | none => exact .none
    | some hsame => exact .some (h _ _ hsame)
  · rw [hdirect]
    exact h.related.perform (forall₂_plain hclear) rfl rfl (inner_directAccess access)
      (mirrors_discard rfl)

end Members

section Replacements

variable {source body : Tree} {binder : String}

theorem same_indexedLoop (label : Option String) (ty arrayTy : Ty) {array index : String}
    (hbinder : S.visible binder = true) (harray : S.visible array = true)
    (hindex : S.visible index = true) {source' body' : Tree} (hsource : S.Same source source')
    (hbody : S.Same body body') :
    S.Same (Lowering.indexedLoop label binder ty source body arrayTy array index)
      (Lowering.indexedLoop label binder ty source' body' arrayTy array index) := by
  have hplain : source.mapTypes S.plainTy = source'.mapTypes S.plainTy := hsource.plain
  have hplain' : body.mapTypes S.plainTy = body'.mapTypes S.plainTy := hbody.plain
  simp only [Lowering.indexedLoop]
  constructor
  · split_ifs <;> simp [Tree.ownNames, Tree.int, hbinder, harray, hindex, hsource.clear, hbody.clear]
  · rw [plain]
    split_ifs <;> simp [Tree.mapTypes, hplain, hplain']

theorem same_iteratorLoop (label : Option String) (ty : Ty) {iterator : String}
    (hbinder : S.visible binder = true) (hiterator : S.visible iterator = true)
    {source' body' : Tree} (hsource : S.Same source source') (hbody : S.Same body body') :
    S.Same (Lowering.iteratorLoop label binder ty source body iterator)
      (Lowering.iteratorLoop label binder ty source' body' iterator) := by
  have hplain : source.mapTypes S.plainTy = source'.mapTypes S.plainTy := hsource.plain
  have hplain' : body.mapTypes S.plainTy = body'.mapTypes S.plainTy := hbody.plain
  simp only [Lowering.iteratorLoop]
  constructor
  · split_ifs <;> simp [Tree.ownNames, hbinder, hiterator, hsource.clear, hbody.clear]
  · rw [plain]
    split_ifs <;> simp [Tree.mapTypes, hplain, hplain']

end Replacements

section Switches

open Switch

variable {subject : Tree} {arms : List Arm}

theorem mirrors_ordinalArm {arm : Arm} (harm : SameArm S.Same S.Same arm (S.plainArm arm)) :
    S.Mirrors (SameArm S.Same S.Same) (Lowering.ordinalArm arm)
      (Lowering.ordinalArm (S.plainArm arm)) := by
  obtain ⟨value, body⟩ := arm
  cases value with
  | none => exact .pure harm
  | some value =>
    cases value with
    | enumConstant ty name =>
      apply (mirrors_resolve ty).andThen
      intro resolved
      apply Lower.Mirrors.nest.bind
      rintro _ _ ⟨rfl, rfl⟩
      cases S.env.nest.ordinal? resolved name with
      | none => exact .throw _ _
      | some ordinal => exact .pure ⟨.some (composes_same.literal _), harm.body⟩
    | _ => exact .throw _ _

theorem Faithful.enumSwitch (h : S.Faithful recur) (label : Option String)
    (hsubject : S.Clear subject)
    (harms : ∀ arm ∈ arms, SameArm S.Same S.Same arm (S.plainArm arm)) :
    S.Mirrors Eq (Lowering.enumSwitch recur label subject arms)
      (Lowering.enumSwitch recur label (S.plain subject) (arms.map S.plainArm)) := by
  have hordinals : S.Mirrors (List.Forall₂ (SameArm S.Same S.Same))
      (arms.mapM Lowering.ordinalArm) ((arms.map S.plainArm).mapM Lowering.ordinalArm) := by
    have hpairs : List.Forall₂ (fun arm arm' => arm ∈ arms ∧ arm' = S.plainArm arm) arms
        (arms.map S.plainArm) := by
      rw [List.forall₂_map_right_iff, List.forall₂_same]
      exact fun arm harm => ⟨harm, rfl⟩
    apply Lower.Mirrors.mapM hpairs
    rintro arm _ ⟨harm, rfl⟩
    exact mirrors_ordinalArm (harms arm harm)
  apply hordinals.bind
  intro ordinals ordinals' hsame
  apply h
  apply same_switch _ _ _ hsame
  constructor
  · simpa [Tree.ownNames] using hsubject
  · have hplain : subject.mapTypes S.plainTy = (S.plain subject).mapTypes S.plainTy :=
      hsubject.same.plain
    simp only [plain, Tree.mapTypes, Tree.mapTypesOption_eq, Option.map_some] at hplain ⊢
    rw [← hplain]

end Switches

section Trees

variable {node : Tree}

/-- A routine declared in the body is lowered once and for all: it is left alone. -/
theorem mirrors_localRoutine (method : Method) :
    S.Mirrors Eq (Lowering.localRoutine recur method) (Lowering.localRoutine recur method) := by
  intro s t hst
  have hshared : s.shared = t.shared := by
    rw [State.shared, State.shared, hst.assembler, hst.bridges]
  cases hdecl : RoutineDecl.ofMethod? S.owner method with
  | none =>
    rw [Lowering.localRoutine_apply_bodiless (by rw [hst.first.owner]; exact hdecl),
      Lowering.localRoutine_apply_bodiless (by rw [hst.second.owner]; exact hdecl)]
    exact .ok ⟨rfl, hst⟩
  | some decl =>
    rw [Lowering.localRoutine_apply (by rw [hst.first.owner]; exact hdecl),
      Lowering.localRoutine_apply (by rw [hst.second.owner]; exact hdecl), hshared]
    rcases Lowering.routine recur decl S.env t.shared with ⟨fault | ⟨lowered, nested⟩, shared⟩
    · exact .error
    · exact .ok ⟨rfl, hst.withRoutines shared (lowered :: nested)⟩

/-- A handler treats a tree as it treats the one with the roles written out. -/
theorem Faithful.tree (h : S.Faithful recur) (hclear : S.Clear node) :
    S.Mirrors Eq (Lowering.tree recur node) (Lowering.tree recur (S.plain node)) := by
  obtain ⟨hname, hpart⟩ := clear_iff.mp hclear
  have hrel := h.related
  have hdiscard {ty : Ty} : S.mirroring.closing.Ends (discard ty) (discard ty) :=
    mirrors_discard rfl
  have hresolve (ty : Ty) : S.mirroring.Rel (resolve ty) (resolve (S.plainTy ty)) :=
    mirrors_resolve ty
  have hvisible {base name : String}
      (hbase : ∀ rest, "$result".toList.isPrefixOf (base.toList ++ rest) = false)
      (hyields : Yields S.env (fun _ => True) (uniqueName base) name) := visible_of_yields hbase hyields
  change S.mirroring.closing.Ends (Lowering.tree recur node) (Lowering.tree recur (S.plain node))
  cases node with
  | block trees =>
    simp only [plain, Tree.mapTypes, Tree.mapTypesList_eq]
    exact S.mirroring.forM₂ ((forall₂_plain hpart).imp h)
  | declareLocal name ty value =>
    simp only [plain, Tree.mapTypes, Tree.mapTypesOption_eq]
    simp only [Tree.ownNames, Tree.children, List.mem_singleton, forall_eq,
      Option.mem_toList] at hname hpart
    exact hrel.declareLocal (hresolve ty) (mirrors_declare hname) (rel_plain hpart)
  | readField owner name ty receiver =>
    simp only [plain, Tree.mapTypes, Tree.mapTypesOption_eq]
    rw [Lowering.tree, Lowering.tree, Lowering.readField_eq, Lowering.readField_eq]
    refine (hresolve owner).ends fun owner => (hresolve ty).ends fun ty => ?_
    refine h.access (sameUse_readField owner name ty fun part hmem =>
      hpart part (Option.mem_toList.mpr hmem)) hpart ?_
    cases receiver <;> rfl
  | invoke kind owner method receiver args =>
    simp only [plain, Tree.mapTypes, Tree.mapTypesOption_eq, Tree.mapTypesList_eq]
    rw [Lowering.tree, Lowering.tree, Lowering.invoke_eq, Lowering.invoke_eq]
    refine (hresolve owner).ends fun owner =>
      Congruence.Rel.ends (mirrors_resolveSignature method) fun method => ?_
    refine (Recur.Related.checkInvocation S.mirroring kind owner method.name).ends fun _ => ?_
    refine h.access (sameUse_invoke kind owner method (fun part hmem => ?_) fun part hmem => ?_)
      hpart ?_
    · exact hpart part (List.mem_append_left _ (Option.mem_toList.mpr hmem))
    · exact hpart part (List.mem_append_right _ hmem)
    · cases kind <;> cases receiver <;> simp [directAccess, impliedReceiver, plain]
  | create ty params args =>
    simp only [plain, Tree.mapTypes, Tree.mapTypesList_eq]
    rw [Lowering.tree, Lowering.tree, Lowering.create_eq, Lowering.create_eq]
    refine (hresolve ty).ends fun ty =>
      Congruence.Rel.ends (mirrors_resolveAll params) fun params => ?_
    refine h.access (sameUse_create ty params hpart) hpart ?_
    simp [directAccess, plain]
  | logical operator left right => exact hrel.logical hclear.sameTest hdiscard
  | branch condition body otherwise =>
    simp only [plain, Tree.mapTypes, Tree.mapTypesOption_eq]
    simp only [Tree.children, List.forall_mem_cons, Option.mem_toList] at hpart
    exact hrel.branch hpart.1.sameTest hpart.2.1.same
      (Tree.endsWithRedirect_mapTypes body).symm (rel_plain hpart.2.2)
  | forLoop label init condition update body =>
    simp only [plain, Tree.mapTypes, Tree.mapTypesOption_eq, Tree.mapTypesList_eq]
    simp only [Tree.children, List.forall_mem_append, Option.mem_toList,
      List.forall_mem_singleton] at hpart
    obtain ⟨⟨⟨hinit, hcondition⟩, hbody⟩, hupdate⟩ := hpart
    refine hrel.forLoop label (forall₂_plain hinit) ?_ (forall₂_plain hupdate) hbody.same
    cases condition with
    | none => exact .none
    | some condition => exact .some (hcondition condition rfl).sameTest
  | whileLoop label condition body bodyFirst =>
    simp only [Tree.children, List.forall_mem_cons] at hpart
    exact hrel.whileLoop label hpart.1.sameTest hpart.2.1.same bodyFirst
  | forEach label binder ty iteration source body =>
    simp only [Tree.ownNames, Tree.children, List.forall_mem_cons] at hname hpart
    obtain ⟨hsource, hbody, -⟩ := hpart
    cases iteration with
    | indexed =>
      refine Recur.Related.indexed (hresolve ty) (hrel.type hsource.same)
        fun ty arrayTy array index harray hindex => h _ _ ?_
      exact same_indexedLoop label ty arrayTy hname.1 (hvisible (fun _ => rfl) harray)
        (hvisible (fun _ => rfl) hindex) hsource.same hbody.same
    | iterator =>
      refine Recur.Related.iterator (hresolve ty) fun ty iterator hiterator => h _ _ ?_
      exact same_iteratorLoop label ty hname.1 (hvisible (fun _ => rfl) hiterator) hsource.same
        hbody.same
  | switch label kind subject arms =>
    simp only [plain, Tree.mapTypes, Tree.mapTypesArms_eq]
    simp only [Tree.children, List.forall_mem_cons] at hpart
    obtain ⟨hsubject, hparts⟩ := hpart
    have harms (arm : Arm) (harm : arm ∈ arms) : Switch.SameArm S.Same S.Same arm (S.plainArm arm) :=
      sameArm_plain fun part hmem => hparts part (List.mem_flatMap.mpr ⟨arm, harm, hmem⟩)
    have hkeyed : List.Forall₂ (Switch.SameArm Switch.SameValue S.Same) arms
        (arms.map S.plainArm) := by
      rw [List.forall₂_map_right_iff, List.forall₂_same]
      exact fun arm harm => ⟨rel_sameValue arm, (harms arm harm).body⟩
    cases kind with
    | int =>
      exact hrel.intSwitch label hsubject.same (fun ty => composes_same.cast _ hsubject.same)
        (fun _ => trivial) composes_same.redirect
        (Switch.agree_collectArms hkeyed Same.isPureRedirect _ _).outcomes
    | enum => exact h.enumSwitch label hsubject harms
    | text | object =>
      refine Recur.Related.hashedSwitch (hrel.type hsubject.same) fun ty name hyields => ?_
      have hname := hvisible (fun _ => rfl) hyields
      have hread : S.Same (.readLocal name ty) (.readLocal name ty) :=
        Clear.refl (Tree.everywhere_readLocal.mpr (List.forall_mem_singleton.mpr hname))
      refine ((Switch.agree_hashed composes_same hkeyed hread _ label subject
        (S.plain subject)).imp fun tree tree' hsame => h tree tree' ?_).outcomes
      obtain ⟨dispatch, dispatch', hdispatch, rfl, rfl⟩ := hsame
      refine composes_same.block (.cons ?_ (.cons hdispatch .nil))
      have hplain : subject.mapTypes S.plainTy = (S.plain subject).mapTypes S.plainTy :=
        hsubject.same.plain
      constructor
      · simp [Tree.ownNames, hname, hsubject]
      · simp [plain, Tree.mapTypes] at hplain ⊢
        exact hplain
  | synchronized lock body =>
    simp only [Tree.children, List.forall_mem_cons] at hpart
    obtain ⟨hlock, hbody, -⟩ := hpart
    have hlock' : lock.mapTypes S.plainTy = (S.plain lock).mapTypes S.plainTy := hlock.same.plain
    have hbody' : body.mapTypes S.plainTy = (S.plain body).mapTypes S.plainTy := hbody.same.plain
    refine Recur.Related.synchronized (hrel.type hlock.same) fun ty name hyields => h _ _ ?_
    have hname := hvisible (fun _ => rfl) hyields
    constructor
    · simp [Tree.ownNames, hname, hlock, hbody]
    · simp [plain, Tree.mapTypes] at hlock' hbody' ⊢
      exact ⟨hlock', hbody'⟩
  | guarded body catches cleanup =>
    simp only [plain, Tree.mapTypes, Tree.mapTypesOption_eq, Tree.mapTypesCatches_eq]
    simp only [Tree.ownNames, Tree.children, List.forall_mem_map, List.cons_append,
      List.forall_mem_cons, List.forall_mem_append, Option.mem_toList] at hname hpart
    obtain ⟨hbody, hcatches, hcleanup⟩ := hpart
    have hclauses : List.Forall₂ (Catch.Matches S.mirroring S.Same) catches
        (catches.map (Catch.mapTypes S.plainTy)) := by
      rw [List.forall₂_map_right_iff, List.forall₂_same]
      intro clause hclause
      exact ⟨hresolve clause.ty, rfl, mirrors_declare (hname clause hclause),
        (hcatches clause hclause).same⟩
    cases cleanup with
    | none => exact hrel.guarded hbody.same hclauses
    | some cleanup =>
      have hregion (start stop exit : Label) (index : Nat) :=
        hrel.region start stop exit index hbody.same hclauses
      refine hrel.guardedWith hregion
        (via_inCleanup (hcleanup cleanup rfl).same) fun name hyields => ?_
      exact mirrors_declare (hvisible (fun _ => rfl) hyields)
  | ret value =>
    simp only [plain, Tree.mapTypes, Tree.mapTypesOption_eq]
    simp only [Tree.children, Option.mem_toList] at hpart
    exact hrel.ret (rel_plain hpart) (fun _ => mirrors_keepResult rfl)
      fun hst => mirrors_keepResult hst.result
  | breakTo label => exact hrel.breakTo label
  | continueTo label => exact hrel.continueTo label
  | redirect => exact hrel.redirect
  | localRoutine method => exact mirrors_localRoutine method
  | _ => exact h.operation hclear rfl

/-- Steps that both mirror a third one mirror each other. -/
theorem Mirrors.join {first second third : Lower Unit} (h : S.Mirrors Eq first third)
    (h' : S.Mirrors Eq second third) : S.Mirrors Eq first second := by
  intro s t hst
  have hfirst := h s t hst
  have hsecond := h' t t (hst.symm.trans hst)
  generalize third S.env t = result at hfirst hsecond
  generalize first S.env s = left at hfirst
  generalize second S.env t = right at hsecond
  obtain ⟨outcome, m⟩ := result
  obtain ⟨outcome', m'⟩ := left
  obtain ⟨outcome'', m''⟩ := right
  cases hfirst with
  | ok hleft =>
    cases hsecond with
    | ok hright => exact .ok ⟨hleft.1.trans hright.1.symm, hleft.2.trans hright.2.symm⟩
  | error =>
    cases hsecond with
    | error => exact .error

theorem faithful_run (depth : Nat) : S.Faithful (Handlers.standard.run depth) := by
  induction depth with
  | zero => exact fun _ _ _ => .throw _ _
  | succ depth ih =>
    intro tree other hsame
    rw [Handlers.run_succ, Handlers.run_succ]
    apply Mirrors.join (ih.tree hsame.clear)
    rw [hsame.plain]
    exact ih.tree hsame.symm.clear

/-- The depth that handlers may nest to does not depend on types. -/
theorem faithful_process : S.Faithful Handlers.standard.process := by
  intro tree other hsame
  have hsize (tree : Tree) : (S.plain tree).size = tree.size := Tree.size_mapTypes tree
  have hcleanups (cleanups : List Cleanup) :
      (cleanups.map S.plainCleanup).foldr (fun cleanup size => cleanup.body.size + size) 0 =
        cleanups.foldr (fun cleanup size => cleanup.body.size + size) 0 := by
    rw [List.foldr_map]
    simp only [plainCleanup, hsize]
  apply Lower.Mirrors.nest.bind
  rintro _ _ ⟨rfl, rfl⟩
  apply Lower.Mirrors.get
  intro s t hst
  have hdepth : Handlers.depthBound S.env.nest s.cleanups tree.size =
      Handlers.depthBound S.env.nest t.cleanups other.size := by
    simp only [Handlers.depthBound]
    rw [← hcleanups s.cleanups, hst.cleanups, hcleanups, ← hsize tree, hsame.plain, hsize]
  rw [hdepth]
  exact faithful_run _ tree other hsame

end Trees

end Setting

end StackLowering
