import StackLowering.Proofs.LabelLedger
/-!
Handlers and labels. Every handler leaves the ledger as it finds it, if what it lowers does.
So a tree is lowered without binding a label twice, no label that is used is left without a
position, and no fault is about labels or about the handler of a tree.
-/

namespace StackLowering

open Lower

theorem Switch.ordinary_dispatchedArms (encoding : Encoding) (limit : Nat)
    (keyed : List (Int32 × Tree)) : Ordinary (Lowering.dispatchedArms encoding limit keyed) := by
  unfold Lowering.dispatchedArms
  split
  · split_ifs
    · exact .error rfl
    · exact .ok _
  · exact .ok _

theorem uses_dispatchCall (encoding : Switch.Encoding) (otherwise : Label)
    (targets : List (Int32 × Label)) :
    (dispatchCall encoding otherwise targets).uses = otherwise :: targets.map Prod.snd := by
  unfold dispatchCall
  split <;> rfl

section Lookups

variable {env : Env} {pending known : List Label} {flows : Flows}

/-- The default arm of a switch around the code can be jumped to. -/
theorem orderly_defaultTarget : Orderly env ⟨pending, known, flows⟩ Lowering.defaultTarget
    fun found => ⟨pending, found.2 :: known, flows⟩ := by
  refine .get_bind fun s hs => ?_
  cases hfound : s.flows.innermostSwitch? with
  | none => exact .throw rfl
  | some found =>
    have hmem : found.2 ∈ s.flows := Flows.mem_of_find? hfound
    rw [hs] at hmem
    exact .pure_of_reaches rfl rfl
      (List.forall_mem_cons.mpr ⟨.inr ⟨found.2, hmem, .inr rfl⟩, fun _ => .inl⟩)

/-- A detour gets a label of its own, and its target can be jumped to. -/
theorem orderly_missTarget (front : List Label) (body : Tree) {otherwise : Option Tree}
    {elseLabel done : Label} (hdone : done ∈ known)
    (helse : otherwise.isSome = true → elseLabel ∈ known) :
    Orderly env ⟨front ++ pending, known, flows⟩
      (Lowering.missTarget body otherwise elseLabel done) fun miss =>
        ⟨front ++ ((miss.2.map Lowering.Detour.label).toList ++ pending),
          miss.1 :: ((miss.2.map Lowering.Detour.target).toList ++ known), flows⟩ := by
  unfold Lowering.missTarget
  split
  · refine orderly_defaultTarget.bind fun found => .get_bind fun s _ => ?_
    dsimp only
    split_ifs
    · exact (Orderly.newLabel front).bind fun label => .pure rfl
    · exact .pure rfl
  · refine .pure_of_reaches rfl rfl (List.forall_mem_cons.mpr ⟨.inl ?_, fun _ => .inl⟩)
    split_ifs with hsome
    · exact helse hsome
    · exact hdone

/-- The label of the other branch is bound if there is one. -/
theorem orderly_elseLabel (front : List Label) (otherwise : Option Tree) :
    Orderly env ⟨front ++ pending, known, flows⟩ newLabel fun label =>
      ⟨front ++ ((otherwise.map fun _ => label).toList ++ pending),
        (otherwise.map fun _ => label).toList ++ known, flows⟩ := by
  cases otherwise with
  | none => exact Neutral.newLabel _
  | some tree => exact .newLabel front

theorem neutral_intSubject (subject : Tree) : Neutral env (Lowering.intSubject subject) := by
  refine fun L => (Neutral.resolve _).bind fun ty => ?_
  split_ifs
  · exact .pure rfl
  · cases ty.unboxed?.filter Prim.isSwitchable with
    | none => exact .throw rfl
    | some prim => exact .pure rfl

/-- The labels of arms that have one of their own. -/
def Switch.opened (otherwise : Label) (arms : List ((Int32 × Tree) × Int32 × Label)) :
    List Label :=
  (arms.map fun arm => arm.2.2).filter (· ≠ otherwise)

/-- Arms that do not share the label of the default wait for their bodies. -/
theorem orderly_armTargets {otherwise : Label} (arms : List (Int32 × Tree)) (front : List Label)
    (hmem : otherwise ∈ pending) (hknown : otherwise ∈ known) :
    Orderly env ⟨front ++ pending, known, flows⟩ (arms.mapM (Lowering.armTarget otherwise))
      fun targets => ⟨front ++ (Switch.opened otherwise (arms.zip targets) ++ pending),
        targets.map Prod.snd ++ known, flows⟩ := by
  induction arms generalizing front known with
  | nil =>
    rw [List.mapM_nil]
    exact .pure rfl
  | cons arm rest ih =>
    rw [List.mapM_cons, Lowering.armTarget]
    split_ifs
    · rw [pure_bind]
      refine (ih front hknown).bind fun targets => .pure_of_reaches ?_ rfl ?_
      · simp [Switch.opened]
      · exact List.forall_mem_cons.mpr
          ⟨.inl (List.mem_append_right _ hknown), fun _ => .inl⟩
    · rw [bind_assoc]
      refine (Orderly.newLabel front).bind fun label => .of_nodup fun hdistinct => ?_
      have hne : label ≠ otherwise := by
        rintro rfl
        exact (List.nodup_cons.mp (List.nodup_middle.mp hdistinct)).1
          (List.mem_append_right _ hmem)
      rw [pure_bind, List.append_cons]
      refine (ih _ (List.mem_cons_of_mem _ hknown)).bind fun targets =>
        .pure_of_reaches ?_ rfl fun other hother => .inl ?_
      · simp [Switch.opened, hne]
      · exact List.perm_middle.mem_iff.mpr hother

theorem neutral_ordinalArm (arm : Arm) : Neutral env (Lowering.ordinalArm arm) := by
  unfold Lowering.ordinalArm
  split
  · exact .pure _
  · refine fun L => (Neutral.resolve _).bind fun resolved => Neutral.nest.bind fun nest => ?_
    split
    · exact .pure rfl
    · exact .throw rfl
  · exact .throw rfl

theorem neutral_operation {tree : Tree} (htree : tree.isOperation = true) :
    Neutral env (Lowering.operation tree) := by
  intro L
  cases tree with
  | literal value =>
    cases value with
    | classOf ty => exact (Neutral.resolve ty).bind fun _ => .pure rfl
    | _ => exact .pure rfl
  | readLocal name ty =>
    exact (Neutral.resolve ty).bind fun _ => (Neutral.require _ _ _).bind fun _ => .pure rfl
  | assignLocal name ty value =>
    refine (Neutral.resolve ty).bind fun _ => (Neutral.require _ _ _).bind fun _ => ?_
    exact Neutral.options.bind fun _ => .pure rfl
  | arith operator ty left right | compare operator left right =>
    refine (Neutral.resolve _).bind fun ty => ?_
    cases operator.opcode? ty.category with
    | none => exact .throw rfl
    | some opcode => exact .pure rfl
  | writeField | enumConstant | instanceOf | newArray =>
    exact (Neutral.resolve _).bind fun _ => .pure rfl
  | cast | arrayLoad =>
    exact (Neutral.resolve _).bind fun _ => (Neutral.resolve _).bind fun _ => .pure rfl
  | self | dup | nothing | not | arrayLength | arrayStore | raise | monitorEnter | monitorExit =>
    exact .pure rfl
  | _ => cases htree

theorem neutral_checkInvocation (kind : InvokeKind) (owner : Ty) (name : String) :
    Neutral env (Lowering.checkInvocation kind owner name) := by
  refine fun L => Neutral.nest.bind fun nest => ?_
  cases nest.kindOf? owner with
  | none => exact .pure rfl
  | some actual =>
    dsimp only
    split_ifs
    · exact .pure rfl
    · exact .throw rfl

theorem neutral_declareParam (param : Param) : Neutral env (Lowering.declareParam param) :=
  fun _ => (Neutral.resolve param.ty).bind fun ty =>
    (Neutral.declare param.name ty).bind fun _ => .pure rfl

end Lookups

/-- Lowering a tree leaves every ledger as it is. -/
def Recur.Orderly (env : Env) (recur : Recur) : Prop := ∀ tree, Neutral env (recur tree)

namespace Recur.Orderly

variable {env : Env} {recur : Recur} {L : Ledger} {pending known : List Label} {flows : Flows}
  (h : recur.Orderly env)

include h

theorem value (tree : Tree) : Neutral env (recur.value tree) := fun L => (h tree L).inExpression

theorem statement (tree : Tree) : Neutral env (recur.statement tree) :=
  fun L => (h tree L).inStatement

theorem inScope (tree : Tree) : Neutral env (recur.inScope tree) :=
  fun L => (h.statement tree L).withScope

theorem values (trees : List Tree) : Neutral env (recur.values trees) :=
  .forM fun tree _ => h.value tree

theorem statements (trees : List Tree) : Neutral env (recur.statements trees) :=
  .forM fun tree _ => h.statement tree

theorem declareLocal (name : String) (ty : Ty) (value : Option Tree) :
    Neutral env (Lowering.declareLocal recur name ty value) := by
  refine fun L => (Neutral.resolve ty).bind fun ty => ?_
  cases value with
  | some value =>
    refine (h.value value).bind fun _ => (Neutral.declare name ty).bind fun slot => ?_
    exact Neutral.setLocal slot L
  | none => exact (Neutral.declare name ty).bind fun _ => .pure rfl

theorem jumpIf (condition : Tree) (sense : Bool) {target : Label} (htarget : L.Reaches target) :
    Lower.Orderly env L (Lowering.jumpIf recur condition sense target) fun _ => L := by
  fun_induction Lowering.jumpIf recur condition sense target generalizing L with
  | case1 _ _ _ _ ihleft ihright =>
    exact (ihleft htarget).bind fun _ => ihright htarget
  | case2 _ _ _ _ _ _ ihleft ihright =>
    obtain ⟨pending, known, flows⟩ := L
    refine .withLabel [] fun skip => ?_
    have htarget : Ledger.Reaches ⟨skip :: pending, skip :: known, flows⟩ _ :=
      htarget.imp_left (List.mem_cons_of_mem _)
    refine (ihleft skip (.inl List.mem_cons_self)).bind fun _ => ?_
    exact (ihright htarget).bind fun _ => .mark
  | case3 _ _ _ ih => exact ih htarget
  | case4 => exact .jump htarget
  | case5 => exact .pure rfl
  | case6 condition sense target =>
    refine (h.value condition).bind fun _ => ?_
    exact .emit (.jump _ target) rfl (List.forall_mem_singleton.mpr htarget)

theorem logical (operator : LogicalOp) (left right : Tree) :
    Neutral env (Lowering.logical recur operator left right) := by
  refine fun L => .withLabel [] fun falsePath => .withLabel [falsePath] fun done => ?_
  refine (h.jumpIf _ _ (.inl (by simp))).bind fun _ => ?_
  refine (Neutral.emit (.bool true) rfl rfl).bind fun _ => ?_
  refine (Orderly.jump (.inl (by simp))).bind fun _ => Orderly.mark.bind fun _ => ?_
  refine (Neutral.emit (.bool false) rfl rfl).bind fun _ => Orderly.mark.bind fun _ => ?_
  exact Neutral.discard _ _

theorem inlineCleanups (start : Nat) : Neutral env (Lowering.inlineCleanups recur start) := by
  have hcopy (taken : List Cleanup) : Neutral env (Lowering.copyFirst recur taken) := by
    cases taken with
    | nil => exact .pure ()
    | cons cleanup _ => exact h.inScope cleanup.body
  refine .get fun s => .forM fun i _ L m hm => ?_
  have hinner : Lower.Orderly env L (bracket
      (fun _ => (m.takeCleanups (s.cleanups.length - 1 - i)).2)
      (State.restoreCleanups (m.cleanups.drop (s.cleanups.length - 1 - i)))
      (Lowering.copyFirst recur (m.cleanups.drop (s.cleanups.length - 1 - i)))) fun _ => L :=
    (hcopy _ L).bracket (fun _ _ => hm) (fun _ _ => id) fun _ => rfl
  exact hinner m hm

theorem leaveTo (depth : Nat) {target : Label} (htarget : L.Reaches target) :
    Lower.Orderly env L (Lowering.leaveTo recur depth target) fun _ => L :=
  .get_bind fun _ _ => (h.inlineCleanups _).bind fun _ => .jump htarget

theorem breakTo (label : Option String) : Neutral env (Lowering.breakTo recur label) := by
  refine fun L => .get_bind fun s hs => ?_
  cases hfound : s.flows.breakTarget? label with
  | none => exact .throw rfl
  | some found =>
    exact h.leaveTo found.1 (.inr ⟨found.2, hs ▸ Flows.mem_of_find? hfound, .inl rfl⟩)

theorem continueTo (label : Option String) : Neutral env (Lowering.continueTo recur label) := by
  refine fun L => .get_bind fun s hs => ?_
  cases hfound : s.flows.continueTarget? label with
  | none => exact .throw rfl
  | some found =>
    exact h.leaveTo found.1 (.inr ⟨found.2, hs ▸ Flows.mem_of_find? hfound, .inr rfl⟩)

theorem redirect : Neutral env (Lowering.redirect recur) :=
  fun _ => orderly_defaultTarget.bind fun found =>
    (h.leaveTo found.1 (.inl List.mem_cons_self)).forget (List.subset_cons_self _ _)

theorem returnAs (value : Tree) (ty : Ty) : Neutral env (Lowering.returnAs recur value ty) := by
  have hret : Neutral env (emit (.ret ty)) := .emit (.ret ty) rfl rfl
  refine fun L => (h.value value).bind fun _ => .get_bind fun s _ => ?_
  split_ifs
  · exact hret L
  · refine .withSlotScope ((Neutral.keepResult ty).bind fun slot => ?_)
    refine (Neutral.setLocal slot).bind fun _ => (h.inlineCleanups 0).bind fun _ => ?_
    exact (Neutral.getLocal slot).bind fun _ => hret L

theorem ret (value : Option Tree) : Neutral env (Lowering.ret recur value) := by
  cases value with
  | none => exact fun L => (h.inlineCleanups 0).bind fun _ => Neutral.op .returnVoid L
  | some value =>
    rw [Lowering.ret, Lowering.returnValue_eq]
    refine .get fun s => ?_
    dsimp only
    split_ifs
    · exact fun L => (Neutral.resolve _).bind fun ty => h.returnAs value ty L
    · exact h.returnAs value _

theorem elseBranch {elseLabel done : Label} (otherwise : Option Tree) (hdone : done ∈ known) :
    Lower.Orderly env
      ⟨(otherwise.map fun _ => elseLabel).toList ++ done :: pending, known, flows⟩
      (Lowering.elseBranch recur elseLabel done otherwise) fun _ => ⟨pending, known, flows⟩ := by
  cases otherwise with
  | none => exact .mark
  | some tree =>
    refine (Orderly.jump (.inl hdone)).bind fun _ => Orderly.mark.bind fun _ => ?_
    exact (h.inScope tree).bind fun _ => .mark

theorem branch (condition body : Tree) (otherwise : Option Tree) :
    Neutral env (Lowering.branch recur condition body otherwise) := by
  refine fun L => .withLabel [] fun start => .withLabel [start] fun bodyLabel => ?_
  refine (orderly_elseLabel [start, bodyLabel] otherwise).bind fun other => ?_
  refine (Orderly.newLabel (start :: bodyLabel :: (otherwise.map fun _ => other).toList)).bind
    fun done => ?_
  have hother : otherwise.isSome = true →
      other ∈ done :: ((otherwise.map fun _ => other).toList ++ bodyLabel :: start :: L.known) := by
    cases otherwise <;> simp
  refine (orderly_missTarget [start, bodyLabel] body List.mem_cons_self hother).bind
    fun ⟨miss, detour⟩ => .forget ?_ ?_
  · refine Orderly.mark.bind fun _ => ?_
    refine (h.jumpIf condition false (.inl List.mem_cons_self)).bind fun _ => ?_
    refine Orderly.mark.bind fun _ => (h.inScope body).bind fun _ => ?_
    cases detour with
    | none => exact h.elseBranch otherwise (by simp)
    | some detour =>
      refine Orderly.mark.bind fun _ => (h.inlineCleanups detour.start).bind fun _ => ?_
      exact (Orderly.jump (.inl (by simp))).bind fun _ => h.elseBranch otherwise (by simp)
  · intro label hlabel
    simp only [List.mem_cons, List.mem_append] at hlabel ⊢
    tauto

theorem forLoop (label : Option String) (init : List Tree) (condition : Option Tree)
    (update : List Tree) (body : Tree) :
    Neutral env (Lowering.forLoop recur label init condition update body) := by
  rw [Lowering.forLoop_eq]
  refine fun L => .withScope ((h.statements init).bind fun _ => ?_)
  simp only [Lowering.newLoopLabels, bind_assoc, pure_bind]
  refine .withLabel [] fun test => .withLabel [] fun start => .withLabel [start] fun next => ?_
  refine .withLabel [start, next, test] fun exit => (Orderly.jump (.inl (by simp))).bind fun _ => ?_
  refine (Orderly.inFlow (test :: exit :: L.pending) (by simp [Lowering.LoopLabels.flow])
    (by simp [Lowering.LoopLabels.flow]) ?_).bind fun _ => Orderly.mark.bind fun _ => ?_
  · exact Orderly.mark.bind fun _ => (h.inScope body).bind fun _ =>
      Orderly.mark.bind fun _ => h.statements update _
  · cases condition with
    | none => exact (Orderly.jump (.inl (by simp))).bind fun _ => .mark
    | some condition => exact (h.jumpIf condition true (.inl (by simp))).bind fun _ => .mark

theorem whileLoop (label : Option String) (condition body : Tree) (bodyFirst : Bool) :
    Neutral env (Lowering.whileLoop recur label condition body bodyFirst) := by
  rw [Lowering.whileLoop_eq]
  simp only [Lowering.newLoopLabels, bind_assoc, pure_bind]
  -- The label of the section after each round is not used.
  refine fun L => .withLabel [] fun test => .withLabel [] fun start => ?_
  refine Neutral.newLabel.bind fun _ => .withLabel [start, test] fun exit => ?_
  split_ifs
  on_goal 2 => refine (Orderly.jump (.inl (by simp))).bind fun _ => ?_
  all_goals
    refine (Orderly.inFlow (test :: exit :: L.pending) (by simp [Lowering.LoopLabels.flow])
      (by simp [Lowering.LoopLabels.flow]) ?_).bind fun _ => ?_
    · exact Orderly.mark.bind fun _ => h.inScope body _
    · exact Orderly.mark.bind fun _ => (h.jumpIf condition true (.inl (by simp))).bind fun _ => .mark

/-- The bodies of arms are laid out one after the other. -/
theorem bodies {otherwise : Label} (arms : List ((Int32 × Tree) × Int32 × Label)) :
    Lower.Orderly env ⟨Switch.opened otherwise arms ++ pending, known, flows⟩
      (arms.forM fun (arm, target) =>
        if target.2 = otherwise then pure ()
        else do
          mark target.2
          recur.inScope arm.2) fun _ => ⟨pending, known, flows⟩ := by
  induction arms with
  | nil => exact .pure rfl
  | cons pair rest ih =>
    rw [List.forM_eq_forM, List.forM_cons]
    dsimp only
    split_ifs with htarget
    · have hopened : Switch.opened otherwise (pair :: rest) = Switch.opened otherwise rest := by
        simp [Switch.opened, htarget]
      rw [hopened, pure_bind]
      exact ih
    · have hopened : Switch.opened otherwise (pair :: rest) =
          pair.2.2 :: Switch.opened otherwise rest := by
        simp [Switch.opened, htarget]
      rw [hopened]
      exact (Orderly.mark.bind fun _ => h.inScope pair.1.2 _).bind fun _ => ih

theorem intSwitch (label : Option String) (subject : Tree) (arms : List Arm) :
    Neutral env (Lowering.intSwitch recur label subject arms) := by
  rw [Lowering.intSwitch_eq]
  refine fun L => (neutral_intSubject subject).bind fun key => ?_
  refine (Neutral.orFail (Switch.ordinary_collectArms _ arms)).bind fun ⟨keyed, defaultBody⟩ => ?_
  refine Neutral.tableLimit.bind fun limit =>
    (Neutral.orFail (Switch.ordinary_dispatchedArms _ limit keyed)).bind fun dispatched => ?_
  refine .withLabel [] fun entry => .withLabel [entry] fun bodyEntry => ?_
  refine .withLabel [entry, bodyEntry] fun otherwise => ?_
  refine .withLabel [entry, bodyEntry, otherwise] fun exit => Orderly.mark.bind fun _ => ?_
  refine (Orderly.inFlow (exit :: L.pending) (by simp) (by simp) ?_).bind fun _ => .mark
  refine (h.value key).bind fun _ => ?_
  refine (orderly_armTargets dispatched [bodyEntry] List.mem_cons_self (by simp)).bind
    fun targets => .forget ?_ (List.subset_append_right _ _)
  rw [Derives.emitDispatch_eq]
  refine (Orderly.emit _ (unmarked_dispatchCall _ otherwise targets).1 ?_).bind fun _ => ?_
  · rw [uses_dispatchCall]
    exact List.forall_mem_cons.mpr ⟨.inl (by simp), fun _ htarget =>
      .inl (List.mem_append_left _ htarget)⟩
  · refine Orderly.mark.bind fun _ => (h.bodies _).bind fun _ => Orderly.mark.bind fun _ => ?_
    cases defaultBody with
    | none => exact .pure rfl
    | some body => exact h.inScope body _

section Guards

variable {start stop exit : Label} (hstart : start ∈ known) (hstop : stop ∈ known)
  (hexit : exit ∈ known)

include hstart hstop hexit

theorem catchClause (cleanupIndex : Nat) (clause : Catch) :
    Lower.Orderly env ⟨pending, known, flows⟩
      (Lowering.catchClause recur start stop exit cleanupIndex clause)
      fun range => ⟨pending, range.2 :: range.1 :: known, flows⟩ := by
  refine (Neutral.resolve _).bind fun ty => (Orderly.newLabel []).bind fun handler => ?_
  refine (Orderly.newLabel [handler]).bind fun handlerEnd => Orderly.mark.bind fun _ => ?_
  refine (Orderly.emit (.region start stop handler (some ty.digest)) rfl ?_).bind fun _ => ?_
  · simp [Call.uses, Ledger.Reaches, hstart, hstop]
  · refine (Orderly.withScope ((Neutral.declare clause.binder ty).bind fun slot =>
      (Neutral.setLocal slot).bind fun _ => h.statement clause.body _)).bind fun _ => ?_
    refine Orderly.mark.bind fun _ => (h.inlineCleanups cleanupIndex).bind fun _ => ?_
    exact (Orderly.jump (.inl (by simp [hexit]))).bind fun _ => .pure rfl

theorem clauses (cleanupIndex : Nat) (catches : List Catch) :
    Lower.Orderly env ⟨pending, known, flows⟩
      (catches.mapM (Lowering.catchClause recur start stop exit cleanupIndex))
      fun ranges => ⟨pending, ranges.flatMap (fun range => [range.1, range.2]) ++ known, flows⟩ := by
  induction catches generalizing known with
  | nil =>
    rw [List.mapM_nil]
    exact .pure rfl
  | cons clause rest ih =>
    rw [List.mapM_cons]
    refine (h.catchClause hstart hstop hexit cleanupIndex clause).bind fun range => ?_
    refine (ih (by simp [hstart]) (by simp [hstop]) (by simp [hexit])).bind fun ranges => ?_
    refine .pure_of_reaches rfl rfl fun label hlabel => .inl ?_
    simp only [List.flatMap_cons, List.cons_append, List.nil_append, List.mem_cons,
      List.mem_append] at hlabel ⊢
    tauto

theorem region (body : Tree) (catches : List Catch) (cleanupIndex : Nat) :
    Lower.Orderly env ⟨start :: stop :: pending, known, flows⟩
      (Lowering.region recur body catches cleanupIndex start stop exit)
      fun ranges => ⟨pending, ranges.flatMap (fun range => [range.1, range.2]) ++ known, flows⟩ := by
  refine Orderly.mark.bind fun _ => (h.inScope body).bind fun _ => ?_
  refine Orderly.mark.bind fun _ => (h.inlineCleanups cleanupIndex).bind fun _ => ?_
  exact (Orderly.jump (.inl hexit)).bind fun _ => h.clauses hstart hstop hexit cleanupIndex catches

end Guards

theorem catchAll (ranges : List (Label × Label)) (cleanup : Tree)
    (hranges : ∀ range ∈ ranges, range.1 ∈ known ∧ range.2 ∈ known) :
    Lower.Orderly env ⟨pending, known, flows⟩ (Lowering.catchAll recur ranges cleanup)
      fun _ => ⟨pending, known, flows⟩ := by
  refine .withLabel [] fun handler => Orderly.mark.bind fun _ => ?_
  refine (Lower.Orderly.forM fun range hrange =>
    .emit (.region range.1 range.2 handler none) rfl ?_).bind fun _ => .withSlotScope ?_
  · obtain ⟨hstart, hstop⟩ := hranges range hrange
    simp [Call.uses, Ledger.Reaches, hstart, hstop]
  · refine (Neutral.uniqueName _).bind fun name => (Neutral.declare name _).bind fun slot => ?_
    refine (Neutral.setLocal slot).bind fun _ => (h.inScope cleanup).bind fun _ => ?_
    exact (Neutral.getLocal slot).bind fun _ => Neutral.op .raise _

theorem guarded (body : Tree) (catches : List Catch) (cleanup : Option Tree) :
    Neutral env (Lowering.guarded recur body catches cleanup) := by
  intro L
  cases cleanup with
  | none =>
    rw [Lowering.guarded_none_eq]
    refine .withLabel [] fun start => .withLabel [start] fun stop => ?_
    refine .withLabel [start, stop] fun exit => .get_bind fun s _ => ?_
    refine (h.region (by simp) (by simp) (by simp) body catches _).bind fun ranges => ?_
    exact Orderly.mark.forget (List.subset_append_right _ _)
  | some cleanup =>
    rw [Lowering.guarded_eq]
    refine .withLabel [] fun start => .withLabel [start] fun stop => ?_
    refine .withLabel [start, stop] fun exit => .get_bind fun s _ => ?_
    refine (h.region (by simp) (by simp) (by simp) body catches _).inCleanup.bind
      fun ⟨ranges, popped⟩ => .forget ?_ (List.subset_append_right _ _)
    cases popped with
    | none => exact .mark
    | some pending =>
      refine (h.catchAll _ _ fun range hrange => ?_).bind fun _ => .mark
      rcases List.mem_cons.mp hrange with rfl | hmem
      · simp
      · have hlabels (label : Label) (hlabel : label ∈ [range.1, range.2]) :
            label ∈ ranges.flatMap (fun range => [range.1, range.2]) ++
              exit :: stop :: start :: L.known :=
          List.mem_append_left _ (List.mem_flatMap.mpr ⟨range, hmem, hlabel⟩)
        exact ⟨hlabels _ (by simp), hlabels _ (by simp)⟩

theorem switch (label : Option String) (kind : SwitchKind) (subject : Tree) (arms : List Arm) :
    Neutral env (Lowering.switch recur label kind subject arms) := by
  intro L
  cases kind with
  | int => exact h.intSwitch label subject arms L
  | enum => exact (Neutral.mapM fun arm _ => neutral_ordinalArm arm).bind fun _ => h _ L
  | text | object =>
    refine .withSlotScope ((Neutral.resolve _).bind fun ty =>
      (Neutral.uniqueName _).bind fun name => ?_)
    exact (Neutral.orFail Switch.ordinary_hashed).bind fun tree => h tree L

theorem forEach (label : Option String) (binder : String) (ty : Ty) (iteration : Iteration)
    (source body : Tree) :
    Neutral env (Lowering.forEach recur label binder ty iteration source body) := by
  refine fun L => .withSlotScope ((Neutral.resolve ty).bind fun ty => ?_)
  cases iteration with
  | indexed =>
    refine (Neutral.resolve _).bind fun _ => (Neutral.uniqueName _).bind fun _ => ?_
    exact (Neutral.uniqueName _).bind fun _ => h _ L
  | iterator => exact (Neutral.uniqueName _).bind fun _ => h _ L

theorem synchronized (lock body : Tree) : Neutral env (Lowering.synchronized recur lock body) :=
  fun L => .withSlotScope ((Neutral.resolve _).bind fun _ =>
    (Neutral.uniqueName _).bind fun _ => h _ L)

theorem perform {operation : Operation}
    (hfirst : ∀ call ∈ operation.first, call.Computes fun _ => False)
    (hlast : ∀ call ∈ operation.last, call.Computes fun _ => True) :
    Neutral env (Lowering.perform recur operation) :=
  fun L => (Neutral.calls hfirst).bind fun _ => (h.values operation.operands).bind fun _ =>
    (Neutral.calls hlast).bind fun _ => Neutral.discard _ L

theorem access (access : Tree) : Neutral env (Lowering.access recur access) := by
  refine fun L => (Neutral.bridged access).bind fun use => ?_
  cases use with
  | some use => exact h use L
  | none => exact h.perform (computes_directAccess access).1 (computes_directAccess access).2 L

theorem routineBody (decl : RoutineDecl) : Neutral env (Lowering.routineBody recur decl) := by
  refine fun L => (Neutral.forM fun name _ => Neutral.reserve name).bind fun _ => ?_
  refine (Neutral.forM fun param _ => neutral_declareParam param).bind fun _ => ?_
  refine (h.statement decl.body).bind fun _ => ?_
  split_ifs
  · exact Neutral.op .returnVoid L
  · exact .pure rfl

theorem routine (decl : RoutineDecl) (shared : Shared) :
    FailsWith (·.isMisuse = false) (Lowering.routine recur decl env shared).1 := by
  have hbody := h.routineBody decl _ (.initial env.nest shared decl.info)
    (Ledger.holds_new shared.pool)
  rw [Lowering.routine]
  generalize Lowering.routineBody recur decl env (.initial env.nest shared decl.info) = outcome
    at hbody ⊢
  cases hbody with
  | error hfault _ => exact .error hfault
  | ok hafter => exact hafter.finish.bind fun _ => .ok _

/-- A routine declared in a body has labels of its own. -/
theorem localRoutine (method : Method) : Neutral env (Lowering.localRoutine recur method) := by
  intro L s hs
  cases hdecl : RoutineDecl.ofMethod? s.currentType method with
  | none =>
    rw [Lowering.localRoutine_apply_bodiless hdecl]
    exact .ok hs
  | some decl =>
    have hfails := h.routine decl s.shared
    rw [Lowering.localRoutine_apply hdecl]
    generalize Lowering.routine recur decl env s.shared = outcome at hfails ⊢
    rcases outcome with ⟨fault | ⟨lowered, nested⟩, shared⟩
    · exact .error (hfails fault rfl) hs.once
    · exact .ok ⟨hs.flows, hs.distinct, hs.pending, hs.settled, hs.once⟩

theorem tree (tree : Tree) : Neutral env (Lowering.tree recur tree) := by
  cases tree with
  | block trees => exact .forM fun tree _ => h tree
  | readField owner name ty receiver =>
    rw [Lowering.tree, Lowering.readField_eq]
    exact fun L => (Neutral.resolve owner).bind fun _ => (Neutral.resolve ty).bind fun _ =>
      h.access _ L
  | invoke kind owner method receiver args =>
    rw [Lowering.tree, Lowering.invoke_eq]
    refine fun L => (Neutral.resolve owner).bind fun _ =>
      (Neutral.resolveSignature method).bind fun _ => ?_
    exact (neutral_checkInvocation kind _ _).bind fun _ => h.access _ L
  | create ty params args =>
    rw [Lowering.tree, Lowering.create_eq]
    exact fun L => (Neutral.resolve ty).bind fun _ => (Neutral.resolveAll params).bind fun _ =>
      h.access _ L
  | logical operator left right => exact h.logical operator left right
  | forEach label binder ty iteration source body =>
    exact h.forEach label binder ty iteration source body
  | switch label kind subject arms => exact h.switch label kind subject arms
  | synchronized lock body => exact h.synchronized lock body
  | localRoutine method => exact h.localRoutine method
  | declareLocal name ty value => exact h.declareLocal name ty value
  | branch condition body otherwise => exact h.branch condition body otherwise
  | forLoop label init condition update body => exact h.forLoop label init condition update body
  | whileLoop label condition body bodyFirst => exact h.whileLoop label condition body bodyFirst
  | guarded body catches cleanup => exact h.guarded body catches cleanup
  | ret value => exact h.ret value
  | breakTo label => exact h.breakTo label
  | continueTo label => exact h.continueTo label
  | redirect => exact h.redirect
  | _ =>
    rw [Lowering.tree_eq_operation recur rfl]
    refine fun L => (neutral_operation rfl L).bind_runs fun op s s' hrun => ?_
    obtain ⟨hoperates, _⟩ := Lowering.runs_operation rfl hrun
    obtain ⟨hfirst, hlast⟩ := hoperates.computes (fun _ => True) fun _ => trivial
    exact h.perform hfirst hlast L

end Recur.Orderly

theorem Handlers.orderly_run (env : Env) (depth : Nat) : (standard.run depth).Orderly env := by
  induction depth with
  | zero => exact fun tree => .throw rfl
  | succ depth ih =>
    intro tree
    rw [run_succ]
    exact ih.tree tree

theorem Handlers.orderly_process (env : Env) : standard.process.Orderly env :=
  fun tree L => Neutral.nest.bind fun _ => .get_bind fun _ _ => orderly_run env _ tree L

/-- No label is bound twice, whether lowering succeeds or not. If it succeeds, every label
that the code uses has a position, so that finishing the code does not fail for a label. No
fault is about the handler of a tree or about a label. -/
theorem process_binds_labels (env : Env) (tree : Tree) (shared : Shared) (info : RoutineInfo) :
    let result := Handlers.standard.process tree env (.initial env.nest shared info)
    result.2.assembler.rebound = none ∧
    (result.1 = .ok () →
      (∀ label, result.2.assembler.Uses label →
        (result.2.assembler.position? label).isSome = true) ∧
      ∀ label, result.2.finish ≠ .error (.unboundLabel label)) ∧
    (∀ kind tree, result.1 ≠ .error (.unsupportedKind kind tree)) ∧
    (∀ expected found, result.1 ≠ .error (.mismatchedTree expected found)) ∧
    ∀ label, result.1 ≠ .error (.unboundLabel label) := by
  have hresult := Handlers.orderly_process env tree _ (.initial env.nest shared info)
    (Ledger.holds_new shared.pool)
  generalize Handlers.standard.process tree env (.initial env.nest shared info) = result at hresult
  cases hresult with
  | error hfault honce =>
    refine ⟨honce, fun hok => (by cases hok), ?_, ?_, ?_⟩
    all_goals
      intros
      rintro ⟨⟩
      cases hfault
  | ok hafter =>
    refine ⟨hafter.once, fun _ => ⟨fun label huses => ?_, fun label hfinish => ?_⟩, ?_, ?_, ?_⟩
    · exact (hafter.settled label (.inl huses)).resolve_left List.not_mem_nil
    · cases hafter.finish _ hfinish
    all_goals
      intros
      rintro ⟨⟩

end StackLowering
