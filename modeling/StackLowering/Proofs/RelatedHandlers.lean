import StackLowering.Proofs.Congruence
/-!
Handlers under a relation between lowerings. What a handler does with two trees
that stand for each other is related if the lowering of their parts is. Where
both sides are given the same tree, this gives one theorem for all handlers, and
with it what every step keeps is kept by lowering any tree.
-/

namespace StackLowering


open Lower

/-- The tree is no connective and no constant, so a condition tests its value. -/
def Tree.IsTested (tree : Tree) : Prop :=
  (∀ operator left right, tree ≠ .logical operator left right) ∧
    (∀ operand, tree ≠ .not operand) ∧ ∀ value, tree ≠ .literal (.bool value)

theorem Lowering.jumpIf_value (recur : Recur) {condition : Tree} (h : condition.IsTested)
    (sense : Bool) (target : Label) :
    jumpIf recur condition sense target = (do
      recur.value condition
      emit (.jump (if sense then .jumpIfTrue else .jumpIfFalse) target)) := by
  rw [jumpIf]
  · exact h.1
  · exact h.2.1
  · exact h.2.2

/-- Conditions that are made of tests in the same way. -/
inductive Tree.SameTest (Same : Tree → Tree → Prop) : Tree → Tree → Prop
  | logical {operator : LogicalOp} {left right left' right' : Tree}
      (hleft : SameTest Same left left') (hright : SameTest Same right right') :
      SameTest Same (.logical operator left right) (.logical operator left' right')
  | not {operand operand' : Tree} (h : SameTest Same operand operand') :
      SameTest Same (.not operand) (.not operand')
  | literal (value : Bool) : SameTest Same (.literal (.bool value)) (.literal (.bool value))
  | value {tree tree' : Tree} (h : Same tree tree') (htested : tree.IsTested)
      (htested' : tree'.IsTested) : SameTest Same tree tree'

theorem Tree.sameTest_self {Same : Tree → Tree → Prop} (hclosed : ∀ tree, Same tree tree →
      ∀ child ∈ tree.children, Same child child) {condition : Tree}
    (h : Same condition condition) : SameTest Same condition condition := by
  suffices htests : ∀ (recur : Recur) (sense : Bool) (target : Label),
      SameTest Same condition condition from htests (fun _ => pure ()) true ⟨0⟩
  intro recur sense target
  have hparts := hclosed condition h
  fun_induction Lowering.jumpIf recur condition sense target with
  | case1 operator left right target ihleft ihright =>
    obtain ⟨hleft, hright, -⟩ := by simpa only [Tree.children, List.forall_mem_cons] using hparts
    exact .logical (ihleft hleft (hclosed left hleft)) (ihright hright (hclosed right hright))
  | case2 operator left right sense target _ ihleft ihright =>
    obtain ⟨hleft, hright, -⟩ := by simpa only [Tree.children, List.forall_mem_cons] using hparts
    exact .logical (ihleft target hleft (hclosed left hleft))
      (ihright hright (hclosed right hright))
  | case3 operand sense target ih =>
    have hoperand := hparts operand (List.mem_singleton_self operand)
    exact .not (ih hoperand (hclosed operand hoperand))
  | case4 | case5 => exact .literal _
  | case6 condition sense target hlogical hnot hliteral =>
    exact .value h ⟨hlogical, hnot, hliteral⟩ ⟨hlogical, hnot, hliteral⟩

/-- The handler of the tree leaves no value and lowers nothing in its place. -/
def Tree.isStatement : Tree → Bool
  | .declareLocal .. | .branch .. | .forLoop .. | .whileLoop .. | .switch _ .int _ _ => true
  | .guarded .. | .ret _ | .breakTo _ | .continueTo _ | .redirect => true
  | _ => false

/-- Both sides lower operands, statements and copies of cleanups in related ways, if
they are given trees that stand for each other. -/
structure Recur.Related {env : Env} {domain : State → Prop} (R : Congruence env domain)
    (Same : Tree → Tree → Prop) (recur recur' : Recur) : Prop where
  value : ∀ {tree tree'}, Same tree tree' → R.Rel (recur.value tree) (recur'.value tree')
  statement : ∀ {tree tree'}, Same tree tree' →
    R.Rel (recur.statement tree) (recur'.statement tree')
  cleanup : ∀ index, R.Rel (Lowering.inlineCleanup recur index)
    (Lowering.inlineCleanup recur' index)
  type : ∀ {tree tree'}, Same tree tree' →
    R.Rel (resolve tree.valueType) (resolve tree'.valueType)

/-- Clauses that catch the same in bodies that stand for each other. -/
structure Catch.Matches {env : Env} {domain : State → Prop} (R : Congruence env domain)
    (Same : Tree → Tree → Prop) (clause clause' : Catch) : Prop where
  type : R.Rel (resolve clause.ty) (resolve clause'.ty)
  binder : clause'.binder = clause.binder
  declare : ∀ ty, R.Rel (declare clause.binder ty) (declare clause.binder ty)
  body : Same clause.body clause'.body

variable {otherwise otherwise' : Option Tree} {cleanup : Tree}

namespace Recur.Related

variable {env : Env} {domain : State → Prop} {R : Congruence env domain}
  {Same : Tree → Tree → Prop} {recur recur' : Recur}

section Statements

variable (h : Related R Same recur recur')

include h

theorem inScope {tree tree' : Tree} (hsame : Same tree tree') :
    R.Rel (recur.inScope tree) (recur'.inScope tree') :=
  R.withScope (h.statement hsame)

theorem values {trees trees' : List Tree} (hsame : List.Forall₂ Same trees trees') :
    R.Rel (recur.values trees) (recur'.values trees') :=
  R.forM₂ (hsame.imp fun _ _ => h.value)

theorem statements {trees trees' : List Tree} (hsame : List.Forall₂ Same trees trees') :
    R.Rel (recur.statements trees) (recur'.statements trees') :=
  R.forM₂ (hsame.imp fun _ _ => h.statement)

theorem declareLocal {ty ty' : Ty} {name : String} (hty : R.Rel (resolve ty) (resolve ty'))
    (hname : ∀ ty, R.Rel (declare name ty) (declare name ty)) {value value' : Option Tree}
    (hvalue : Option.Rel Same value value') :
    R.Rel (Lowering.declareLocal recur name ty value)
      (Lowering.declareLocal recur' name ty' value') := by
  refine hty.bind fun ty => ?_
  cases hvalue with
  | none => exact (hname ty).bind fun _ => R.pure ()
  | some hvalue =>
    refine (h.value hvalue).bind fun _ => (hname ty).bind fun slot => ?_
    exact R.emit (.setLocal slot) trivial

end Statements

section Control

variable (h : Related R Same recur recur') {condition condition' body body' : Tree}

include h

theorem jumpIf (hcondition : Tree.SameTest Same condition condition') (sense : Bool)
    (target : Label) : R.Rel (Lowering.jumpIf recur condition sense target)
      (Lowering.jumpIf recur' condition' sense target) := by
  induction hcondition generalizing sense target with
  | logical _ _ ihleft ihright =>
    rw [Lowering.jumpIf, Lowering.jumpIf]
    split_ifs
    · exact (ihleft sense target).bind fun _ => ihright sense target
    · refine R.newLabel.bind fun skip => (ihleft (!sense) skip).bind fun _ => ?_
      exact (ihright sense target).bind fun _ => R.mark skip
  | not _ ih => exact ih (!sense) target
  | literal value =>
    rw [Lowering.jumpIf, Lowering.jumpIf]
    split_ifs
    · exact R.jump target
    · exact R.pure ()
  | value hvalue htested htested' =>
    rw [Lowering.jumpIf_value recur htested, Lowering.jumpIf_value recur' htested']
    refine (h.value hvalue).bind fun _ => R.emit (.jump _ target) ?_
    change Opcode.isJump _ = true
    split_ifs <;> rfl

theorem inlineCleanups (start : Nat) :
    R.Rel (Lowering.inlineCleanups recur start) (Lowering.inlineCleanups recur' start) := by
  refine R.get (fun hsame => by rw [hsame.cleanups]) fun s t _ hst => ?_
  rw [(R.alongside hst).length]
  exact R.forM fun i _ => h.cleanup _

theorem leaveTo (depth : Nat) (target : Label) :
    R.Rel (Lowering.leaveTo recur depth target) (Lowering.leaveTo recur' depth target) := by
  refine R.get (fun hsame => by rw [hsame.alongside.firstCleanupInside]) fun s t _ hst => ?_
  rw [(R.alongside hst).firstCleanupInside]
  exact (h.inlineCleanups _).bind fun _ => R.jump target

theorem breakTo (label : Option String) :
    R.Rel (Lowering.breakTo recur label) (Lowering.breakTo recur' label) := by
  refine R.get (fun hsame => by rw [hsame.flows]) fun s t _ hst => ?_
  rw [(R.alongside hst).flows]
  cases t.flows.breakTarget? label with
  | none => exact R.throw (R.faults _ rfl)
  | some found => exact h.leaveTo found.1 found.2.exit

theorem continueTo (label : Option String) :
    R.Rel (Lowering.continueTo recur label) (Lowering.continueTo recur' label) := by
  refine R.get (fun hsame => by rw [hsame.flows]) fun s t _ hst => ?_
  rw [(R.alongside hst).flows]
  cases t.flows.continueTarget? label with
  | none => exact R.throw (R.faults _ rfl)
  | some found => exact h.leaveTo found.1 found.2.bodyExit

omit h in
theorem defaultTarget (R : Congruence env domain) :
    R.Rel Lowering.defaultTarget Lowering.defaultTarget := by
  refine R.get (fun hsame => by rw [hsame.flows]) fun s t _ hst => ?_
  rw [(R.alongside hst).flows]
  cases t.flows.innermostSwitch? with
  | none => exact R.throw (R.faults _ rfl)
  | some found => exact R.pure _

theorem redirect : R.Rel (Lowering.redirect recur) (Lowering.redirect recur') :=
  (defaultTarget R).bind fun found => h.leaveTo found.1 found.2

theorem returnAs {value value' : Tree} {ty ty' : Ty} (hvalue : Same value value')
    (hkeep : R.Rel (keepResult ty) (keepResult ty')) (hvoid : ty.isVoid = ty'.isVoid) :
    R.Rel (Lowering.returnAs recur value ty) (Lowering.returnAs recur' value' ty') := by
  have hret : Assembler.ret ty' = Assembler.ret ty := by rw [Assembler.ret, Assembler.ret, hvoid]
  unfold Lowering.returnAs
  rw [hret]
  refine (h.value hvalue).bind fun _ => ?_
  refine R.get (fun hsame => by rw [hsame.cleanups]) fun s t _ hst => ?_
  have hempty : t.cleanups.isEmpty = s.cleanups.isEmpty := by
    rw [Bool.eq_iff_iff, List.isEmpty_iff_length_eq_zero, List.isEmpty_iff_length_eq_zero,
      (R.alongside hst).length]
  rw [hempty]
  split_ifs
  · exact R.emit (.ret ty) trivial
  · refine R.withSlotScope (hkeep.bind fun slot => ?_)
    refine (R.emit (.setLocal slot) trivial).bind fun _ => (h.inlineCleanups 0).bind fun _ => ?_
    exact (R.emit (.getLocal slot) trivial).bind fun _ => R.emit (.ret ty) trivial

theorem ret {value value' : Option Tree} (hvalue : Option.Rel Same value value')
    (hkeep : ∀ ty, R.Rel (keepResult ty) (keepResult ty))
    (hresult : ∀ {s t}, R.Around s t → R.Rel (keepResult s.result) (keepResult t.result)) :
    R.Rel (Lowering.ret recur value) (Lowering.ret recur' value') := by
  cases hvalue with
  | none => exact (h.inlineCleanups 0).bind fun _ => R.op ⟨rfl, rfl⟩
  | some hvalue =>
    rw [Lowering.ret, Lowering.ret, Lowering.returnValue_eq, Lowering.returnValue_eq]
    refine R.get (fun hsame => by rw [hsame.result]) fun s t _ hst => ?_
    have hvoid := (R.alongside hst).isVoid
    dsimp only
    rw [← hvoid]
    split_ifs
    · exact (h.type hvalue).bind fun ty => h.returnAs hvalue (hkeep ty) rfl
    · exact h.returnAs hvalue (hresult hst) hvoid

omit h in
theorem missTarget (R : Congruence env domain) (hredirect : body.endsWithRedirect =
      body'.endsWithRedirect) (hotherwise : otherwise.isSome = otherwise'.isSome)
    (elseLabel done : Label) :
    R.Rel (Lowering.missTarget body otherwise elseLabel done)
      (Lowering.missTarget body' otherwise' elseLabel done) := by
  unfold Lowering.missTarget
  rw [hredirect, hotherwise]
  split
  · refine (defaultTarget R).bind fun found => ?_
    refine R.get (fun hsame => ?_) fun s t _ hst => ?_
    · rw [hsame.alongside.firstCleanupInside, hsame.cleanups]
    · rw [(R.alongside hst).firstCleanupInside, (R.alongside hst).length]
      dsimp only
      split_ifs
      · exact R.newLabel.bind fun label => R.pure _
      · exact R.pure _
  · exact R.pure _

theorem elseBranch (hotherwise : Option.Rel Same otherwise otherwise') (elseLabel done : Label) :
    R.Rel (Lowering.elseBranch recur elseLabel done otherwise)
      (Lowering.elseBranch recur' elseLabel done otherwise') := by
  cases hotherwise with
  | none => exact R.mark done
  | some hotherwise =>
    refine (R.jump done).bind fun _ => (R.mark elseLabel).bind fun _ => ?_
    exact (h.inScope hotherwise).bind fun _ => R.mark done

theorem branch (hcondition : Tree.SameTest Same condition condition') (hbody : Same body body')
    (hredirect : body.endsWithRedirect = body'.endsWithRedirect)
    (hotherwise : Option.Rel Same otherwise otherwise') :
    R.Rel (Lowering.branch recur condition body otherwise)
      (Lowering.branch recur' condition' body' otherwise') := by
  have hsome : otherwise.isSome = otherwise'.isSome := by cases hotherwise <;> rfl
  refine R.newLabel.bind fun start => R.newLabel.bind fun bodyLabel => ?_
  refine R.newLabel.bind fun elseLabel => R.newLabel.bind fun done => ?_
  refine (missTarget R hredirect hsome elseLabel done).bind fun ⟨miss, detour⟩ => ?_
  refine (R.mark start).bind fun _ => (h.jumpIf hcondition false miss).bind fun _ => ?_
  refine (R.mark bodyLabel).bind fun _ => (h.inScope hbody).bind fun _ => ?_
  cases detour with
  | none => exact h.elseBranch hotherwise elseLabel done
  | some detour =>
    refine (R.mark detour.label).bind fun _ => (h.inlineCleanups detour.start).bind fun _ => ?_
    exact (R.jump detour.target).bind fun _ => h.elseBranch hotherwise elseLabel done

omit h in
theorem newLoopLabels (R : Congruence env domain) :
    R.Rel Lowering.newLoopLabels Lowering.newLoopLabels := by
  refine R.newLabel.bind fun _ => R.newLabel.bind fun _ => ?_
  exact R.newLabel.bind fun _ => R.newLabel.bind fun _ => R.pure _

theorem forLoop (label : Option String) {init init' update update' : List Tree}
    {condition condition' : Option Tree} (hinit : List.Forall₂ Same init init')
    (hcondition : Option.Rel (Tree.SameTest Same) condition condition')
    (hupdate : List.Forall₂ Same update update') (hbody : Same body body') :
    R.Rel (Lowering.forLoop recur label init condition update body)
      (Lowering.forLoop recur' label init' condition' update' body') := by
  rw [Lowering.forLoop_eq, Lowering.forLoop_eq]
  refine R.withScope ((h.statements hinit).bind fun _ => (newLoopLabels R).bind fun labels => ?_)
  refine (R.jump _).bind fun _ => Congruence.Rel.bind (R.inFlow _ ?_) fun _ => ?_
  · refine (R.mark _).bind fun _ => (h.inScope hbody).bind fun _ => ?_
    exact (R.mark _).bind fun _ => h.statements hupdate
  · refine (R.mark _).bind fun _ => ?_
    cases hcondition with
    | none => exact (R.jump _).bind fun _ => R.mark _
    | some hcondition => exact (h.jumpIf hcondition true _).bind fun _ => R.mark _

theorem whileLoop (label : Option String) (hcondition : Tree.SameTest Same condition condition')
    (hbody : Same body body') (bodyFirst : Bool) :
    R.Rel (Lowering.whileLoop recur label condition body bodyFirst)
      (Lowering.whileLoop recur' label condition' body' bodyFirst) := by
  rw [Lowering.whileLoop_eq, Lowering.whileLoop_eq]
  refine (newLoopLabels R).bind fun labels => ?_
  dsimp only
  split_ifs
  on_goal 2 => refine (R.jump _).bind fun _ => ?_
  all_goals
    refine Congruence.Rel.bind (R.inFlow _ ((R.mark _).bind fun _ => h.inScope hbody)) fun _ => ?_
    exact (R.mark _).bind fun _ => (h.jumpIf hcondition true _).bind fun _ => R.mark _

end Control

section Switches

variable (h : Related R Same recur recur') {subject subject' : Tree} {arms arms' : List Arm}

include h

theorem intSubject (hsubject : Same subject subject')
    (hcast : ∀ ty, Same (.cast ty subject) (.cast ty subject'))
    (hfault : ∀ ty, R.Faults (.nonNumericSubject ty subject) (.nonNumericSubject ty subject')) :
    R.closing.Via Same (Lowering.intSubject subject) (Lowering.intSubject subject') := by
  intro next next' hnext
  rw [Lowering.intSubject, Lowering.intSubject, bind_assoc, bind_assoc]
  refine (h.type hsubject).ends fun ty => ?_
  split_ifs
  · exact hnext _ _ hsubject
  · cases ty.unboxed?.filter Prim.isSwitchable with
    | none => exact R.throw (hfault ty)
    | some prim => exact hnext _ _ (hcast _)

omit h in
theorem armTarget (R : Congruence env domain) (otherwise : Label) {arm arm' : Int32 × Tree}
    (harm : Switch.SameEntry Same arm arm') :
    R.Rel (Lowering.armTarget otherwise arm) (Lowering.armTarget otherwise arm') := by
  unfold Lowering.armTarget
  rw [harm.redirect, harm.key]
  split_ifs
  · exact R.pure _
  · exact R.newLabel.bind fun label => R.pure _

/-- Bodies are laid out alike. -/
theorem bodies (otherwise : Label) {dispatched dispatched' : List (Int32 × Tree)}
    (hdispatched : List.Forall₂ (Switch.SameEntry Same) dispatched dispatched')
    (targets : List (Int32 × Label)) :
    List.Forall₂ (fun pair pair' => R.Rel
        (if pair.2.2 = otherwise then pure () else do
          mark pair.2.2
          recur.inScope pair.1.2)
        (if pair'.2.2 = otherwise then pure () else do
          mark pair'.2.2
          recur'.inScope pair'.1.2))
      (dispatched.zip targets) (dispatched'.zip targets) := by
  induction hdispatched generalizing targets with
  | nil => exact .nil
  | cons harm _ ih =>
    cases targets with
    | nil => exact .nil
    | cons target targets =>
      refine .cons ?_ (ih targets)
      dsimp only
      split_ifs
      · exact R.pure ()
      · exact (R.mark _).bind fun _ => h.inScope harm.body

theorem intSwitch (label : Option String) (hsubject : Same subject subject')
    (hcast : ∀ ty, Same (.cast ty subject) (.cast ty subject'))
    (hfault : ∀ ty, R.Faults (.nonNumericSubject ty subject) (.nonNumericSubject ty subject'))
    (hredirect : Same .redirect .redirect)
    (harms : Outcomes R.Faults (fun split split' =>
        List.Forall₂ (Switch.SameEntry Same) split.1 split'.1 ∧ Option.Rel Same split.2 split'.2)
      (Switch.collectArms (.switch label .int subject arms) arms)
      (Switch.collectArms (.switch label .int subject' arms') arms')) :
    R.Rel (Lowering.intSwitch recur label subject arms)
      (Lowering.intSwitch recur' label subject' arms') := by
  rw [Lowering.intSwitch_eq, Lowering.intSwitch_eq]
  refine h.intSubject hsubject hcast hfault fun key key' hkey => ?_
  refine Congruence.Closing.via_orFail harms fun ⟨keyed, defaultBody⟩ ⟨keyed', defaultBody'⟩
    ⟨⟨hentries, hdefault⟩, hkeyed⟩ => ?_
  dsimp only
  rw [← Switch.map_fst_eq hentries]
  refine R.tableLimit.ends fun limit => Congruence.Closing.via_orFail
    (Switch.outcomes_dispatchedArms R.faults hredirect hentries _ limit)
    fun dispatched dispatched' ⟨hdispatched, hfilled⟩ => ?_
  refine R.newLabel.bind fun entry => R.newLabel.bind fun bodyEntry => ?_
  refine R.newLabel.bind fun otherwise => R.newLabel.bind fun exit => ?_
  refine (R.mark entry).bind fun _ => Congruence.Rel.bind (R.inFlow _ ?_) fun _ => R.mark exit
  refine (h.value hkey).bind fun _ => ?_
  refine R.bind (R.mapM₂ (hdispatched.imp fun _ _ => armTarget R otherwise))
    fun targets ⟨_, _, _, htargets⟩ => ?_
  -- The dispatch is regular because its keys are those of the arms, in order.
  have hkeys := State.map_fst_armTargets (Derives.armTargets htargets)
  have hproper := dispatchCall_proper hkeyed hfilled hkeys otherwise
  rw [Derives.emitDispatch_eq]
  refine (R.emit _ (inner_dispatchCall (dispatchCall_plain hproper .empty).regular)).bind fun _ => ?_
  refine (R.mark bodyEntry).bind fun _ => ?_
  refine (R.forM₂ (h.bodies otherwise hdispatched targets)).bind fun _ => ?_
  refine (R.mark otherwise).bind fun _ => ?_
  cases hdefault with
  | none => exact R.pure ()
  | some hbody => exact h.inScope hbody

end Switches

section Guards

variable (h : Related R Same recur recur') {body body' : Tree} {catches catches' : List Catch}

include h

theorem catchClause (start stop exit : Label) (cleanupIndex : Nat) {clause clause' : Catch}
    (hclause : Catch.Matches R Same clause clause') :
    R.Rel (Lowering.catchClause recur start stop exit cleanupIndex clause)
      (Lowering.catchClause recur' start stop exit cleanupIndex clause') := by
  unfold Lowering.catchClause
  rw [hclause.binder]
  refine hclause.type.bind fun ty => R.newLabel.bind fun handler => ?_
  refine R.newLabel.bind fun handlerEnd => (R.mark handler).bind fun _ => ?_
  refine (R.emit (.region start stop handler (some ty.digest)) trivial).bind fun _ => ?_
  refine (R.withScope ((hclause.declare ty).bind fun slot => ?_)).bind fun _ => ?_
  · exact (R.emit (.setLocal slot) trivial).bind fun _ => h.statement hclause.body
  · refine (R.mark handlerEnd).bind fun _ => (h.inlineCleanups cleanupIndex).bind fun _ => ?_
    exact (R.jump exit).bind fun _ => R.pure _

theorem catchAll (hthrowable : ∀ name, Yields env domain (uniqueName "$throwable") name →
      ∀ ty, R.Rel (declare name ty) (declare name ty)) (ranges : List (Label × Label))
    {cleanup' : Tree} (hcleanup : Same cleanup cleanup') :
    R.Rel (Lowering.catchAll recur ranges cleanup)
      (Lowering.catchAll recur' ranges cleanup') := by
  refine R.newLabel.bind fun handler => (R.mark handler).bind fun _ => ?_
  refine (R.forM fun range _ => R.emit (.region range.1 range.2 handler none) trivial).bind
    fun _ => R.withSlotScope (R.bind (R.uniqueName _) fun name hname => ?_)
  refine (hthrowable name hname _).bind fun slot => ?_
  refine (R.emit (.setLocal slot) trivial).bind fun _ => (h.inScope hcleanup).bind fun _ => ?_
  exact (R.emit (.getLocal slot) trivial).bind fun _ => R.op ⟨rfl, rfl⟩

theorem region (start stop exit : Label) (cleanupIndex : Nat) (hbody : Same body body')
    (hcatches : List.Forall₂ (Catch.Matches R Same) catches catches') :
    R.Rel (Lowering.region recur body catches cleanupIndex start stop exit)
      (Lowering.region recur' body' catches' cleanupIndex start stop exit) := by
  refine (R.mark start).bind fun _ => (h.inScope hbody).bind fun _ => ?_
  refine (R.mark stop).bind fun _ => (h.inlineCleanups _).bind fun _ => ?_
  refine (R.jump exit).bind fun _ => ?_
  exact R.mapM₂ (hcatches.imp fun _ _ => h.catchClause start stop exit cleanupIndex)

theorem guarded (hbody : Same body body')
    (hcatches : List.Forall₂ (Catch.Matches R Same) catches catches') :
    R.Rel (Lowering.guarded recur body catches none)
      (Lowering.guarded recur' body' catches' none) := by
  rw [Lowering.guarded_none_eq, Lowering.guarded_none_eq]
  refine R.newLabel.bind fun start => R.newLabel.bind fun stop => R.newLabel.bind fun exit => ?_
  refine R.get (fun hsame => by rw [hsame.cleanups]) fun s t _ hst => ?_
  rw [(R.alongside hst).length]
  exact (h.region start stop exit _ hbody hcatches).bind fun _ => R.mark exit

/-- A region with a cleanup. Inside of it another relation may hold. -/
theorem guardedWith {Inner : Lower (List (Label × Label)) → Lower (List (Label × Label)) → Prop}
    {cleanup' : Tree} (hregion : ∀ start stop exit cleanupIndex,
      Inner (Lowering.region recur body catches cleanupIndex start stop exit)
        (Lowering.region recur' body' catches' cleanupIndex start stop exit))
    (hinner : ∀ {first second}, Inner first second → R.closing.Via (fun region region' =>
        region.1 = region'.1 ∧
          Option.Rel (fun pending pending' => Same pending.body pending'.body) region.2 region'.2)
      (inCleanup cleanup first) (inCleanup cleanup' second))
    (hthrowable : ∀ name, Yields env domain (uniqueName "$throwable") name →
      ∀ ty, R.Rel (declare name ty) (declare name ty)) :
    R.Rel (Lowering.guarded recur body catches (some cleanup))
      (Lowering.guarded recur' body' catches' (some cleanup')) := by
  rw [Lowering.guarded_eq, Lowering.guarded_eq]
  refine R.newLabel.bind fun start => R.newLabel.bind fun stop => R.newLabel.bind fun exit => ?_
  refine R.get (fun hsame => by rw [hsame.cleanups]) fun s t _ hst => ?_
  rw [(R.alongside hst).length]
  refine hinner (hregion start stop exit _) fun ⟨ranges, pending⟩ ⟨_, pending'⟩ hregion => ?_
  obtain ⟨rfl, hpending⟩ := hregion
  cases hpending with
  | none => exact R.mark exit
  | some hpending => exact (h.catchAll hthrowable _ hpending).bind fun _ => R.mark exit

end Guards

section Values

variable {E : R.Closing} (h : Related R Same recur recur') {left left' right right' : Tree}

include h

theorem perform {operation operation' : Operation}
    (hoperands : List.Forall₂ Same operation.operands operation'.operands)
    (hfirst : operation'.first = operation.first) (hlast : operation'.last = operation.last)
    (hinner : (∀ call ∈ operation.first, call.Inner) ∧ ∀ call ∈ operation.last, call.Inner)
    (hdiscard : E.Ends (discard operation.result) (discard operation'.result)) :
    E.Ends (Lowering.perform recur operation) (Lowering.perform recur' operation') := by
  unfold Lowering.perform
  rw [hfirst, hlast]
  refine (R.forM fun call hcall => R.emit call (hinner.1 call hcall)).ends fun _ => ?_
  refine (h.values hoperands).ends fun _ => ?_
  exact (R.forM fun call hcall => R.emit call (hinner.2 call hcall)).ends fun _ => hdiscard

theorem perform_self {operation : Operation} (hoperands : ∀ tree ∈ operation.operands, Same tree tree)
    (hinner : (∀ call ∈ operation.first, call.Inner) ∧ ∀ call ∈ operation.last, call.Inner)
    (hdiscard : E.Ends (discard operation.result) (discard operation.result)) :
    E.Ends (Lowering.perform recur operation) (Lowering.perform recur' operation) :=
  h.perform (List.forall₂_same.mpr hoperands) rfl rfl hinner hdiscard

omit h in
theorem access {access access' : Tree}
    (hbridged : E.Via (Option.Rel fun use use' => E.Ends (recur use) (recur' use'))
      (bridged access) (bridged access'))
    (hperform : E.Ends (Lowering.perform recur (directAccess access))
      (Lowering.perform recur' (directAccess access'))) :
    E.Ends (Lowering.access recur access) (Lowering.access recur' access') := by
  refine hbridged fun use use' huse => ?_
  cases huse with
  | none => exact hperform
  | some huse => exact huse

omit h in
theorem checkInvocation (R : Congruence env domain) (kind : InvokeKind) (owner : Ty)
    (name : String) :
    R.Rel (Lowering.checkInvocation kind owner name) (Lowering.checkInvocation kind owner name) := by
  refine R.nest.bind fun nest => ?_
  cases nest.kindOf? owner with
  | none => exact R.pure ()
  | some actual =>
    dsimp only
    split_ifs
    · exact R.pure ()
    · exact R.throw (R.faults _ rfl)

theorem logical {operator : LogicalOp}
    (htest : Tree.SameTest Same (.logical operator left right) (.logical operator left' right'))
    (hdiscard : E.Ends (discard Ty.bool) (discard Ty.bool)) :
    E.Ends (Lowering.logical recur operator left right)
      (Lowering.logical recur' operator left' right') := by
  refine R.newLabel.ends fun falsePath => R.newLabel.ends fun done => ?_
  refine (h.jumpIf htest false falsePath).ends fun _ => ?_
  refine (R.emit (.bool true) trivial).ends fun _ => (R.jump done).ends fun _ => ?_
  refine (R.mark falsePath).ends fun _ => (R.emit (.bool false) trivial).ends fun _ => ?_
  exact (R.mark done).ends fun _ => hdiscard

end Values

section Replacements

variable {E : R.Closing} {label : Option String}

variable {body' : Tree}

theorem indexed {binder : String} {ty ty' : Ty} {source source' body : Tree}
    (hty : R.Rel (resolve ty) (resolve ty'))
    (hsource : R.Rel (resolve source.valueType) (resolve source'.valueType))
    (hloop : ∀ ty arrayTy array index, Yields env domain (uniqueName "$array") array →
      Yields env domain (uniqueName "$arrayIndex") index → E.Ends
        (recur (Lowering.indexedLoop label binder ty source body arrayTy array index))
        (recur' (Lowering.indexedLoop label binder ty source' body' arrayTy array index))) :
    E.Ends (Lowering.forEach recur label binder ty .indexed source body)
      (Lowering.forEach recur' label binder ty' .indexed source' body') := by
  refine E.withSlotScope (hty.ends fun ty => hsource.ends fun arrayTy => ?_)
  exact E.bind (R.uniqueName _) fun array harray => E.bind (R.uniqueName _) fun index hindex =>
    hloop ty arrayTy array index harray hindex

theorem iterator {binder : String} {ty ty' : Ty} {source source' body : Tree}
    (hty : R.Rel (resolve ty) (resolve ty'))
    (hloop : ∀ ty iterator, Yields env domain (uniqueName "$iterator") iterator → E.Ends
      (recur (Lowering.iteratorLoop label binder ty source body iterator))
      (recur' (Lowering.iteratorLoop label binder ty source' body' iterator))) :
    E.Ends (Lowering.forEach recur label binder ty .iterator source body)
      (Lowering.forEach recur' label binder ty' .iterator source' body') :=
  E.withSlotScope (hty.ends fun ty => E.bind (R.uniqueName _) fun iterator => hloop ty iterator)

theorem ordinalArm (R : Congruence env domain) (arm : Arm) :
    R.Rel (Lowering.ordinalArm arm) (Lowering.ordinalArm arm) := by
  unfold Lowering.ordinalArm
  split
  · exact R.pure _
  · refine (R.resolve _).bind fun resolved => R.nest.bind fun nest => ?_
    split
    · exact R.pure _
    · exact R.throw (R.faults _ rfl)
  · exact R.throw (R.faults _ rfl)

theorem enumSwitch {subject : Tree} {arms : List Arm}
    (hswitch : ∀ {s s' : State} {arms' : List Arm},
      Runs (arms.mapM Lowering.ordinalArm) env s arms' s' → E.Ends
        (recur (.switch label .int
          (.invoke .virtual Ty.enumRoot ⟨"ordinal", Ty.int, []⟩ (some subject) []) arms'))
        (recur' (.switch label .int
          (.invoke .virtual Ty.enumRoot ⟨"ordinal", Ty.int, []⟩ (some subject) []) arms'))) :
    E.Ends (Lowering.enumSwitch recur label subject arms)
      (Lowering.enumSwitch recur' label subject arms) :=
  E.bind (R.mapM₂ (List.forall₂_same.mpr fun arm _ => ordinalArm R arm))
    fun _ ⟨_, _, _, harms⟩ => hswitch harms

theorem hashedSwitch {kind : SwitchKind} {subject subject' : Tree} {arms arms' : List Arm}
    (hsubject : R.Rel (resolve subject.valueType) (resolve subject'.valueType))
    (hhashed : ∀ ty name, Yields env domain (uniqueName "$subject") name →
      Outcomes R.Faults (fun tree tree' => E.Ends (recur tree) (recur' tree'))
        (Switch.hashed kind label subject arms ty name)
        (Switch.hashed kind label subject' arms' ty name)) :
    E.Ends (Lowering.hashedSwitch recur label kind subject arms)
      (Lowering.hashedSwitch recur' label kind subject' arms') := by
  refine E.withSlotScope (hsubject.ends fun ty => E.bind (R.uniqueName _) fun name hname => ?_)
  exact Congruence.Closing.via_orFail (hhashed ty name hname) fun _ _ htree => htree.1

theorem synchronized {lock lock' body : Tree}
    (hlock : R.Rel (resolve lock.valueType) (resolve lock'.valueType))
    (hblock : ∀ ty name, Yields env domain (uniqueName "$lock") name → E.Ends
      (recur (.block [.monitorEnter (.block [lock, .declareLocal name ty (some (.dup ty))]),
        .guarded body [] (some (.monitorExit (.readLocal name ty)))]))
      (recur' (.block [.monitorEnter (.block [lock', .declareLocal name ty (some (.dup ty))]),
        .guarded body' [] (some (.monitorExit (.readLocal name ty)))]))) :
    E.Ends (Lowering.synchronized recur lock body) (Lowering.synchronized recur' lock' body') :=
  E.withSlotScope (hlock.ends fun ty => E.bind (R.uniqueName _) fun name => hblock ty name)

end Replacements

section Trees

/-- What a handler lowers in the place of its own tree. -/
inductive Becomes : Tree → Tree → Prop
  | part {trees : List Tree} {tree : Tree} (h : tree ∈ trees) : Becomes (.block trees) tree
  | indexed {label : Option String} {binder array index : String} {ty ty' arrayTy : Ty}
      {source body : Tree} : Becomes (.forEach label binder ty .indexed source body)
        (Lowering.indexedLoop label binder ty' source body arrayTy array index)
  | iterator {label : Option String} {binder iterator : String} {ty ty' : Ty}
      {source body : Tree} : Becomes (.forEach label binder ty .iterator source body)
        (Lowering.iteratorLoop label binder ty' source body iterator)
  | ordinals {label : Option String} {subject : Tree} {arms arms' : List Arm} {env : Env}
      {s s' : State} (harms : Runs (arms.mapM Lowering.ordinalArm) env s arms' s') :
      Becomes (.switch label .enum subject arms) (.switch label .int
        (.invoke .virtual Ty.enumRoot ⟨"ordinal", Ty.int, []⟩ (some subject) []) arms')
  | hashed {label : Option String} {kind : SwitchKind} {subject tree : Tree} {arms : List Arm}
      {ty : Ty} {name : String} (hkind : kind ≠ .int)
      (h : Switch.hashed kind label subject arms ty name = .ok tree) :
      Becomes (.switch label kind subject arms) tree
  | synchronized {lock body : Tree} {ty : Ty} {name : String} :
      Becomes (.synchronized lock body)
        (.block [.monitorEnter (.block [lock, .declareLocal name ty (some (.dup ty))]),
          .guarded body [] (some (.monitorExit (.readLocal name ty)))])

/-- Both sides lower the parts of the tree in related ways. -/
structure Parts (R : Congruence env domain) (Same : Tree → Tree → Prop) (recur recur' : Recur)
    (node : Tree) : Prop where
  closed : ∀ tree, Same tree tree → ∀ child ∈ tree.children, Same child child
  same : ∀ child ∈ node.children, Same child child
  switch : ∀ label subject arms, node = .switch label .int subject arms →
    Same .redirect .redirect ∧ ∀ ty, Same (.cast ty subject) (.cast ty subject)
  options : ∀ name ty value, node = .assignLocal name ty value →
    R.Rel Lower.options Lower.options
  guarded : ∀ body catches cleanup, node = .guarded body catches (some cleanup) →
    R.Rel (Lowering.guarded recur body catches (some cleanup))
      (Lowering.guarded recur' body catches (some cleanup))

theorem forall_mem_pair {α : Type} {P : α → Prop} {first second : α} :
    (∀ value ∈ [first, second], P value) ↔ P first ∧ P second := by
  rw [List.forall_mem_cons, List.forall_mem_singleton]

theorem rel_self {α : Type} {V : α → α → Prop} {value? : Option α}
    (h : ∀ value ∈ value?, V value value) : Option.Rel V value? value? := by
  cases value? with
  | none => exact .none
  | some value => exact .some (h value rfl)

theorem rel_toList {tree? : Option Tree} (h : ∀ tree ∈ tree?.toList, Same tree tree) :
    Option.Rel Same tree? tree? :=
  rel_self fun tree hmem => h tree (Option.mem_toList.mpr hmem)

theorem same_of_singleton {tree : Tree} (h : ∀ part ∈ [tree], Same part part) : Same tree tree :=
  h tree (List.mem_singleton_self tree)

theorem matches_self (hR : R.Plain) {catches : List Catch}
    (h : ∀ clause ∈ catches, Same clause.body clause.body) :
    List.Forall₂ (Catch.Matches R Same) catches catches :=
  List.forall₂_same.mpr fun clause hmem =>
    ⟨R.resolve clause.ty, rfl, hR.declare clause.binder, h clause hmem⟩

theorem guarded_self (hR : R.Exact) (h : Related R Same recur recur') {body : Tree}
    {catches : List Catch} (hbody : Same body body)
    (hcatches : ∀ clause ∈ catches, Same clause.body clause.body)
    (hpending : ∀ {first : Lower (List (Label × Label))} {region},
      Yields env domain (inCleanup cleanup first) region →
        ∀ pending ∈ region.2, Same pending.body pending.body) :
    R.Rel (Lowering.guarded recur body catches (some cleanup))
      (Lowering.guarded recur' body catches (some cleanup)) := by
  have hregion (start stop exit : Label) (index : Nat) :=
    h.region start stop exit index hbody (matches_self hR.toPlain hcatches)
  refine h.guardedWith hregion
    (fun hinner => (hR.inCleanup cleanup hinner).via fun region hregion => ⟨rfl, rel_self ?_⟩)
    fun name _ => hR.declare name
  exact hpending hregion

/-- What an operation stands for is found out in the same way on both sides. -/
theorem operation_self (hR : R.Plain) {node : Tree} (hnode : node.isOperation = true)
    (hoptions : ∀ name ty value, node = .assignLocal name ty value →
      R.Rel Lower.options Lower.options) :
    R.Rel (Lowering.operation node) (Lowering.operation node) := by
  cases node with
  | literal value =>
    cases value with
    | classOf ty => exact (R.resolve ty).bind fun _ => R.pure _
    | _ => exact R.pure _
  | readLocal name ty =>
    exact (R.resolve ty).bind fun _ => (hR.require _ _ _).bind fun _ => R.pure _
  | assignLocal name ty value =>
    refine (R.resolve ty).bind fun _ => (hR.require _ _ _).bind fun _ => ?_
    exact (hoptions _ _ _ rfl).bind fun _ => R.pure _
  | arith operator ty left right | compare operator left right =>
    refine (R.resolve _).bind fun ty => ?_
    cases operator.opcode? ty.category with
    | none => exact R.throw (R.faults _ rfl)
    | some opcode => exact R.pure _
  | writeField | enumConstant | instanceOf | newArray =>
    exact (R.resolve _).bind fun _ => R.pure _
  | cast | arrayLoad => exact (R.resolve _).bind fun _ => (R.resolve _).bind fun _ => R.pure _
  | self | dup | nothing | not | arrayLength | arrayStore | raise | monitorEnter | monitorExit =>
    exact R.pure _
  | _ => cases hnode

/-- Operations are related on one tree, if discarding their value is. -/
theorem ends_operation {E : R.Closing} (hR : R.Plain) (h : Related R Same recur recur')
    {node : Tree} (hparts : Parts R Same recur recur' node) (hnode : node.isOperation = true)
    (hdiscard : ∀ {s operation}, domain s → Operates env s node operation →
      E.Ends (discard operation.result) (discard operation.result)) :
    E.Ends (Lowering.tree recur node) (Lowering.tree recur' node) := by
  rw [Lowering.tree_eq_operation _ hnode, Lowering.tree_eq_operation _ hnode]
  refine E.bind (operation_self hR hnode hparts.options) fun operation ⟨s, _, hs, hrun⟩ => ?_
  have hoperates := (Lowering.runs_operation hnode hrun).1
  exact h.perform_self (fun part hpart => hparts.same part (hoperates.operands_subset part hpart))
    hoperates.inner (hdiscard hs hoperates)

/-- Handlers of statements are related on one tree. -/
theorem statement_self (hR : R.Plain) (h : Related R Same recur recur') {node : Tree}
    (hparts : Parts R Same recur recur' node) (hstatement : node.isStatement = true) :
    R.Rel (Lowering.tree recur node) (Lowering.tree recur' node) := by
  have hkeep (ty : Ty) : R.Rel (keepResult ty) (keepResult ty) :=
    (R.uniqueName _).bind fun name => hR.declare name ty
  have htest {condition : Tree} := @Tree.sameTest_self _ hparts.closed condition
  have hsame := hparts.same
  cases node with
  | declareLocal name ty value =>
    exact h.declareLocal (R.resolve ty) (hR.declare name) (rel_toList hsame)
  | branch condition body otherwise =>
    obtain ⟨hcondition, hrest⟩ := List.forall_mem_cons.mp hsame
    obtain ⟨hbody, hotherwise⟩ := List.forall_mem_cons.mp hrest
    exact h.branch (htest hcondition) hbody rfl (rel_toList hotherwise)
  | forLoop label init condition update body =>
    obtain ⟨hsame, hupdate⟩ := List.forall_mem_append.mp hsame
    obtain ⟨hsame, hbody⟩ := List.forall_mem_append.mp hsame
    obtain ⟨hinit, hcondition⟩ := List.forall_mem_append.mp hsame
    refine h.forLoop label (List.forall₂_same.mpr hinit) (rel_self fun tree hmem => ?_)
      (List.forall₂_same.mpr hupdate) (same_of_singleton hbody)
    exact htest (hcondition tree (Option.mem_toList.mpr hmem))
  | whileLoop label condition body bodyFirst =>
    obtain ⟨hcondition, hbody⟩ := forall_mem_pair.mp hsame
    exact h.whileLoop label (htest hcondition) hbody bodyFirst
  | switch label kind subject arms =>
    cases kind with
    | int =>
      obtain ⟨hsubject, harms⟩ := List.forall_mem_cons.mp hsame
      have hbodies := Tree.forall_trees_iff.mp harms
      obtain ⟨hredirect, hcast⟩ := hparts.switch _ _ _ rfl
      refine h.intSwitch label hsubject hcast (fun _ => R.faults _ rfl) hredirect
        (R.outcomes_refl (Switch.ordinary_collectArms _ arms) fun ⟨keyed, otherwise⟩ hcollect => ?_)
      obtain ⟨hkeyed, hotherwise⟩ :=
        Switch.satisfies_collectArms (P := fun tree => Same tree tree) hcollect
          fun arm harm => (hbodies arm harm).2
      exact ⟨List.forall₂_same.mpr fun arm harm => ⟨rfl, hkeyed arm harm, rfl⟩,
        rel_self hotherwise⟩
    | _ => cases hstatement
  | guarded body catches cleanup =>
    cases cleanup with
    | some cleanup => exact hparts.guarded body catches cleanup rfl
    | none =>
      obtain ⟨hsame, _⟩ := List.forall_mem_append.mp hsame
      obtain ⟨hbody, hcatches⟩ := List.forall_mem_cons.mp hsame
      exact h.guarded hbody (matches_self hR (List.forall_mem_map.mp hcatches))
  | ret value =>
    refine h.ret (rel_toList hsame) hkeep fun hst => ?_
    rw [(hR.around hst).result]
    exact hkeep _
  | breakTo label => exact h.breakTo label
  | continueTo label => exact h.continueTo label
  | redirect => exact h.redirect
  | _ => cases hstatement

/-- The standard handlers are related on one tree, if discarding a value is related
to itself and both sides also lower trees in its place and local routines so. -/
theorem tree_self (hR : R.Plain) (h : Related R Same recur recur') {node : Tree}
    (hparts : Parts R Same recur recur' node)
    (hdiscard : ∀ ty, R.Rel (Lower.discard ty) (Lower.discard ty))
    (hplace : ∀ tree, Becomes node tree → R.Rel (recur tree) (recur' tree))
    (hbridged : ∀ access use, (∀ child ∈ (directAccess access).operands, Same child child) →
      Yields env domain (bridged access) (some use) → R.Rel (recur use) (recur' use))
    (hlocal : ∀ method, node = .localRoutine method →
      R.Rel (Lowering.localRoutine recur method) (Lowering.localRoutine recur' method)) :
    R.Rel (Lowering.tree recur node) (Lowering.tree recur' node) := by
  have hends (ty : Ty) : R.closing.Ends (Lower.discard ty) (Lower.discard ty) := hdiscard ty
  have hin {tree : Tree} (hbecomes : Becomes node tree) :
      R.closing.Ends (recur tree) (recur' tree) := hplace tree hbecomes
  have haccess (access : Tree) (hoperands : ∀ child ∈ (directAccess access).operands,
      Same child child) : R.closing.Ends (Lowering.access recur access)
        (Lowering.access recur' access) := by
    refine Related.access ((hR.bridged access).via fun use? huse => rel_self ?_)
      (h.perform_self hoperands (inner_directAccess access) (hends _))
    rintro use rfl
    exact hbridged access use hoperands huse
  have htest {condition : Tree} := @Tree.sameTest_self _ hparts.closed condition
  have hsame := hparts.same
  cases node with
  | block trees => exact R.forM fun tree htree => hplace tree (.part htree)
  | readField owner name ty receiver =>
    rw [Lowering.tree, Lowering.tree, Lowering.readField_eq, Lowering.readField_eq]
    exact (R.resolve owner).bind fun owner => (R.resolve ty).bind fun ty => haccess _ hsame
  | invoke kind owner method receiver args =>
    rw [Lowering.tree, Lowering.tree, Lowering.invoke_eq, Lowering.invoke_eq]
    refine (R.resolve owner).bind fun owner => (R.resolveSignature method).bind fun method => ?_
    exact (checkInvocation R kind owner method.name).bind fun _ => haccess _ hsame
  | create ty params args =>
    rw [Lowering.tree, Lowering.tree, Lowering.create_eq, Lowering.create_eq]
    exact (R.resolve ty).bind fun ty => (R.resolveAll params).bind fun params => haccess _ hsame
  | logical operator left right =>
    obtain ⟨hleft, hright⟩ := forall_mem_pair.mp hsame
    exact h.logical (.logical (htest hleft) (htest hright)) (hends _)
  | forEach label binder ty iteration source body =>
    cases iteration with
    | indexed => exact indexed (R.resolve ty) (R.resolve _) fun _ _ _ _ _ _ => hin .indexed
    | iterator => exact iterator (R.resolve ty) fun _ _ _ => hin .iterator
  | switch label kind subject arms =>
    cases kind with
    | int => exact statement_self hR h hparts rfl
    | enum => exact enumSwitch fun harms => hin (.ordinals harms)
    | text | object =>
      exact hashedSwitch (R.resolve _) fun ty name _ =>
        R.outcomes_refl Switch.ordinary_hashed fun tree htree => hin (.hashed (by decide) htree)
  | synchronized lock body => exact synchronized (R.resolve _) fun _ _ _ => hin .synchronized
  | localRoutine method => exact hlocal method rfl
  | declareLocal | branch | forLoop | whileLoop | guarded | ret | breakTo | continueTo | redirect =>
    exact statement_self hR h hparts rfl
  | _ => exact ends_operation hR h hparts rfl fun _ _ => hends _

end Trees

section Equal

theorem of_exact (hR : R.Exact) (hvalue : ∀ tree, R.Rel (recur.value tree) (recur'.value tree))
    (hstatement : ∀ tree, R.Rel (recur.statement tree) (recur'.statement tree)) :
    Related R Eq recur recur' where
  value := by
    rintro tree _ rfl
    exact hvalue tree
  statement := by
    rintro tree _ rfl
    exact hstatement tree
  cleanup index := by
    change R.Rel (setAside index (Lowering.copyFirst recur))
      (setAside index (Lowering.copyFirst recur'))
    refine hR.setAside index fun taken => ?_
    cases taken with
    | nil => exact R.pure ()
    | cons cleanup _ => exact R.withScope (hstatement cleanup.body)
  type := by
    rintro tree _ rfl
    exact R.resolve _

theorem Parts.of_exact (hR : R.Exact) {node : Tree}
    (hoptions : ∀ name ty value, node = .assignLocal name ty value →
      R.Rel Lower.options Lower.options) (h : Related R Eq recur recur') :
    Parts R Eq recur recur' node where
  closed := fun _ _ _ _ => rfl
  same := fun _ _ => rfl
  switch := fun _ _ _ _ => ⟨rfl, fun _ => rfl⟩
  options := hoptions
  guarded := fun _ _ _ _ => guarded_self hR h rfl (fun _ _ => rfl) fun _ _ _ => rfl

theorem tree (hR : R.Exact) {node : Tree}
    (hoptions : ∀ name ty value, node = .assignLocal name ty value →
      R.Rel Lower.options Lower.options) (h : Related R Eq recur recur')
    (hdiscard : ∀ ty, R.Rel (Lower.discard ty) (Lower.discard ty))
    (hplace : ∀ tree, R.Rel (recur tree) (recur' tree))
    (hlocal : ∀ method, node = .localRoutine method →
      R.Rel (Lowering.localRoutine recur method) (Lowering.localRoutine recur' method)) :
    R.Rel (Lowering.tree recur node) (Lowering.tree recur' node) :=
  tree_self hR.toPlain h (.of_exact hR hoptions h) hdiscard (fun tree _ => hplace tree)
    (fun _ use _ _ => hplace use) hlocal

theorem declareParam (hR : R.Plain) (param : Param) :
    R.Rel (Lowering.declareParam param) (Lowering.declareParam param) :=
  (R.resolve param.ty).bind fun ty => (hR.declare param.name ty).bind fun _ => R.pure ()

theorem routineBody (hR : R.Plain) (h : Related R Same recur recur') (decl : RoutineDecl)
    (hbody : Same decl.body decl.body) :
    R.Rel (Lowering.routineBody recur decl) (Lowering.routineBody recur' decl) := by
  refine (R.forM fun name _ => hR.reserve name).bind fun _ => ?_
  refine (R.forM fun param _ => declareParam hR param).bind fun _ => ?_
  refine (h.statement hbody).bind fun _ => ?_
  split_ifs
  · exact R.op ⟨rfl, rfl⟩
  · exact R.pure ()

end Equal

end Recur.Related

theorem Lower.Congruence.process {env : Env} {domain : State → Prop} {R : Congruence env domain}
    (hR : R.Exact) {handlers handlers' : Handlers} {tree : Tree}
    (h : ∀ depth, R.Rel (handlers.run depth tree) (handlers'.run depth tree)) :
    R.Rel (handlers.process tree) (handlers'.process tree) := by
  refine R.nest.bind fun nest => ?_
  refine R.get (fun hsame => by rw [hsame.cleanups]) fun s t _ hst => ?_
  rw [(hR.around hst).cleanups]
  exact h _

/-- What can be said of the states before and after, if each step keeps it. -/
structure State.Kept (env : Env) where
  Rel : State → State → Prop
  refl : ∀ s, Rel s s
  trans : ∀ {s m s' : State}, Rel s m → Rel m s' → Rel s s'
  emits : ∀ call : Call, call.Inner → ∀ s, Rel s (s.emits call)
  declare : ∀ (name : String) (ty : Ty) (s : State), Rel s (s.withSlots (s.slots.declare name ty).2)
  reserve : ∀ (name : String) (s : State), Rel s (s.onSlots (·.reserve name))
  uniqueName : ∀ (base : String) (s : State), Rel s (s.withSlots (s.slots.uniqueName base).2)
  bridged : ∀ (access : Tree) (s : State), Rel s (s.bridged env access).2
  /-- Nothing is said of the loops, switches and cleanups around the code. -/
  around : ∀ (flows : Flows) (cleanups : List Cleanup) (s : State),
    Rel s { s with flows := flows, cleanups := cleanups }
  scope : ∀ {s m : State}, Rel s.enterScope m → Rel s m.exitScope
  slotScope : ∀ {s m : State}, Rel s.enterSlotScope m → Rel s m.exitSlotScope
  value : ∀ {s m : State}, Rel s.enterExpression m → Rel s m.exitExpression
  statement : ∀ {s m : State}, Rel (s.withDepth 0) m → Rel s (m.withDepth s.expressionDepth)

namespace Lower

variable {α β : Type} {env : Env} {K : State.Kept env}

/-- The step keeps the relation, whether it succeeds or not. -/
def Keeps (K : State.Kept env) (action : Lower α) : Prop := ∀ s : State, K.Rel s (action env s).2

namespace Keeps

theorem bind {action : Lower α} {next : α → Lower β} (h : Keeps K action)
    (hnext : ∀ value, Yields env (fun _ => True) action value → Keeps K (next value)) :
    Keeps K (action >>= next) := by
  intro s
  have hfirst := h s
  rw [bind_apply]
  rcases hrun : action env s with ⟨fault | value, m⟩
  · rw [hrun] at hfirst
    exact hfirst
  · rw [hrun] at hfirst
    exact K.trans hfirst (hnext value ⟨s, m, trivial, hrun⟩ m)

theorem pure (value : α) : Keeps K (Pure.pure value : Lower α) := K.refl

theorem orFail (outcome : Except Fault α) : Keeps K (Lower.orFail outcome) := by
  cases outcome with
  | error fault => exact K.refl
  | ok value => exact K.refl

theorem modifyGet {f : State → α × State} (h : ∀ s : State, K.Rel s (f s).2) :
    Keeps K (modifyGet f) := h

theorem modify {f : State → State} (h : ∀ s : State, K.Rel s (f s)) : Keeps K (modify f) := h

theorem discard (ty : Ty) : Keeps K (Lower.discard ty) := by
  intro s
  change K.Rel s (s.discard ty)
  unfold State.discard
  split_ifs
  · exact K.refl s
  · exact K.emits (.pop ty.width) trivial s

end Keeps

/-- Keeping a relation is a property of lowerings. -/
def keeping (K : State.Kept env) : Congruence env fun _ => True where
  Rel := fun first _ => Keeps K first
  pure := .pure
  throw := fun _ => K.refl
  bind := .bind
  get := fun _ hnext s => hnext s s trivial (.refl s) s
  nest := K.refl
  tableLimit := K.refl
  emit := fun call hcall => .modify (K.emits call hcall)
  newLabel := .modifyGet (K.emits .newLabel trivial)
  uniqueName := fun base => .modifyGet (K.uniqueName base)
  inFlow := fun flow _ _ h =>
    Keeps.bind (.modify fun s => K.around (flow :: s.flows) s.cleanups s) fun _ _ =>
      h.bind fun _ _ => Keeps.bind (.modify fun s => K.around s.flows.tail s.cleanups s)
        fun _ _ => .pure _
  withScope := fun h s => K.scope (h s.enterScope)
  withSlotScope := fun h s => K.slotScope (h s.enterSlotScope)

theorem exact_keeping : (keeping K).Exact where
  around := id
  declare := fun name ty => Keeps.bind (.modifyGet (K.declare name ty)) fun _ _ => .orFail _
  require := fun _ _ _ => Keeps.bind K.refl fun _ _ => .orFail _
  reserve := fun name => .modify (K.reserve name)
  bridged := fun access s => K.bridged access s
  inCleanup := fun body _ _ h =>
    Keeps.bind (.modify fun s => K.around s.flows (s.pushCleanup body).cleanups s) fun _ _ =>
      Keeps.bind h fun _ _ =>
        Keeps.bind (.modifyGet fun s => K.around s.flows s.cleanups.dropLast s) fun _ _ => .pure _
  setAside := fun index {action _} h s => by
    let inner : State := { s with cleanups := s.cleanups.take index }
    have hinner : K.Rel s inner := K.around s.flows (s.cleanups.take index) s
    exact K.trans (K.trans hinner (h (s.cleanups.drop index) inner)) (K.around _ _ _)

theorem related_keeping {recur : Recur} (h : ∀ tree, Keeps K (recur tree)) :
    Recur.Related (keeping K) Eq recur recur :=
  .of_exact exact_keeping (fun tree s => K.value (h tree s.enterExpression))
    fun tree s => K.statement (h tree (s.withDepth 0))

theorem keeps_run (hlocal : ∀ recur, (∀ tree, Keeps K (recur tree)) →
      ∀ method, Keeps K (Lowering.localRoutine recur method)) (depth : Nat) (tree : Tree) :
    Keeps K (Handlers.standard.run depth tree) := by
  induction depth generalizing tree with
  | zero => exact K.refl
  | succ depth ih =>
    rw [Handlers.run_succ]
    exact (related_keeping ih).tree exact_keeping (fun _ _ _ _ => K.refl) Keeps.discard ih
      fun method _ => hlocal _ ih method

theorem keeps_process (h : ∀ depth tree, Keeps K (Handlers.standard.run depth tree)) (tree : Tree) :
    Keeps K (Handlers.standard.process tree) := by
  have hprocess : (keeping K).Rel (Handlers.standard.process tree)
      (Handlers.standard.process tree) := Congruence.process exact_keeping fun depth => h depth tree
  exact hprocess

end Lower

end StackLowering
