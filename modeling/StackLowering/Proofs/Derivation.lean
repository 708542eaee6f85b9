import StackLowering.Proofs.Runs
/-!
Lowering as a derivation. A successful lowering is a derivation tree whose
nodes say what each handler does: which states it goes through, which calls it
makes on the assembler and which further trees it lowers. Properties of lowered
code are shown by induction on such derivations.
-/

namespace StackLowering

namespace State

def emitsAll (calls : List Call) (s : State) : State := calls.foldl (fun s call => s.emits call) s

@[simp]
theorem slots_emitsAll (calls : List Call) (s : State) : (s.emitsAll calls).slots = s.slots := by
  induction calls generalizing s with
  | nil => rfl
  | cons call rest ih => exact ih (s.emits call)

/-- A name that is new in the routine. -/
def freshName (base : String) (s : State) : String := (s.slots.uniqueName base).1

/-- The state in which a new name is taken. -/
def takeName (base : String) (s : State) : State := s.withSlots (s.slots.uniqueName base).2

def reserveAll (names : List String) (s : State) : State :=
  names.foldl (fun s name => s.onSlots (·.reserve name)) s

/-- Enter a cleanup, if there is one. -/
def pushCleanup? : Option Tree → State → State
  | some body, s => s.pushCleanup body
  | none, s => s

/-- Leave the cleanup that was entered. -/
def popCleanup? : Option Tree → State → State
  | some _, s => s.popCleanup.2
  | none, s => s

/-- The body of the cleanup that is about to be left. -/
def pending? (cleanup : Option Tree) (s : State) : Option Tree :=
  cleanup.bind fun _ => s.cleanups.getLast?.map Cleanup.body

/-- Labels for the arms of a switch. Arms that only redirect share the label of
the default. -/
def armTargets (otherwise : Label) : List (Int32 × Tree) → State → List (Int32 × Label) × State
  | [], s => ([], s)
  | arm :: rest, s =>
    if arm.2.isPureRedirect then
      ((arm.1, otherwise) :: (s.armTargets otherwise rest).1, (s.armTargets otherwise rest).2)
    else
      ((arm.1, s.label 0) :: ((s.emits .newLabel).armTargets otherwise rest).1,
        ((s.emits .newLabel).armTargets otherwise rest).2)

theorem newLabels_of_armTargets {otherwise : Label} {arms : List (Int32 × Tree)}
    {targets : List (Int32 × Label)} {s s' : State}
    (h : s.armTargets otherwise arms = (targets, s')) : ∃ count, s' = s.newLabels count := by
  induction arms generalizing s targets with
  | nil =>
    cases h
    exact ⟨0, rfl⟩
  | cons arm rest ih =>
    unfold armTargets at h
    split_ifs at h
    · obtain ⟨-, rfl⟩ := Prod.mk.inj h
      exact ih rfl
    · obtain ⟨-, rfl⟩ := Prod.mk.inj h
      obtain ⟨count, hcount⟩ := @ih _ (s.emits .newLabel) rfl
      exact ⟨count + 1, hcount.trans (newLabels_emits count s)⟩

end State

/-- The type `ty` stands for where the code is lowered. -/
def Resolves (env : Env) (s : State) (ty resolved : Ty) : Prop :=
  env.nest.resolve s.currentType ty = .ok resolved

/-- An instruction with operands: calls made before the operands, the operands
from left to right, and calls that consume them and leave a value. -/
structure Operation where
  first : List Call
  operands : List Tree
  last : List Call
  result : Ty

/-- The call that pushes a constant; class literals have to be resolved first. -/
def Literal.call? : Literal → Option Call
  | .null => some (.op .pushNull)
  | .bool value => some (.bool value)
  | .byte value => some (.int value.toInt32)
  | .char value => some (.int (Int32.ofNat value.toNat))
  | .short value => some (.int value.toInt32)
  | .int value => some (.int value)
  | .long value => some (.constant (.long value))
  | .float bits => some (.constant (.float bits))
  | .double bits => some (.constant (.double bits))
  | .text value => some (.constant (.bytes value.toUTF8.data.toList))
  | .classOf _ => none

/-- The calls of a conversion. -/
def conversionCalls (source target : Ty) : List Call :=
  if source = target ∨ target.isVoid then []
  else match source, target with
    | .prim source, .prim target => (source.conversion target).map .op
    | _, _ => if target = Ty.root then [] else [.digest .cast target.digest]

/-- The receiver of a call that names none. -/
def impliedReceiver : InvokeKind → Option Tree → List Call
  | .static, _ => []
  | _, none => [.op .getThis]
  | _, some _ => []

/-- How a resolved access is performed when it needs no bridge. -/
def directAccess : Tree → Operation
  | .readField owner name ty receiver =>
    let op := if receiver.isSome then Opcode.getField else .getStatic
    ⟨[], receiver.toList, [.digest op (Digest.ofField owner.digest name)], ty⟩
  | .invoke kind owner method receiver args =>
    ⟨impliedReceiver kind receiver, receiver.toList ++ args,
      [.invoke kind (Lowering.calleeDigest owner method) args.length], method.result⟩
  | .create ty params args =>
    ⟨[], args, [.create ty.digest (Digest.ofConstructor ty.digest (params.map Ty.digest))
      args.length], ty⟩
  | _ => ⟨[], [], [], Ty.void⟩

/-- The tree is a construct of its own and no instruction with operands. -/
def Tree.isControl : Tree → Bool
  | .block _ | .declareLocal .. | .logical .. | .branch .. | .forLoop .. | .whileLoop ..
  | .guarded .. | .ret _ | .breakTo _ | .continueTo _ | .redirect => true
  | _ => false

section Relations

variable (env : Env) (s : State)

/-- An access with its types resolved. -/
inductive Accesses : Tree → Tree → Prop
  | readField {owner owner' ty ty' : Ty} {name : String} {receiver : Option Tree}
      (howner : Resolves env s owner owner') (hty : Resolves env s ty ty') :
      Accesses (.readField owner name ty receiver) (.readField owner' name ty' receiver)
  | invoke {kind : InvokeKind} {owner owner' : Ty} {method method' : Signature}
      {receiver : Option Tree} {args : List Tree} (howner : Resolves env s owner owner')
      (hmethod : env.nest.resolveSignature s.currentType method = .ok method')
      (hadmits : ∀ actual ∈ env.nest.kindOf? owner', Lowering.admitsOwner kind actual = true) :
      Accesses (.invoke kind owner method receiver args)
        (.invoke kind owner' method' receiver args)
  | create {ty ty' : Ty} {params params' : List Ty} {args : List Tree}
      (hty : Resolves env s ty ty')
      (hparams : env.nest.resolveAll s.currentType params = .ok params') :
      Accesses (.create ty params args) (.create ty' params' args)

/-- Trees that are an instruction with operands. -/
inductive Operates : Tree → Operation → Prop
  | literal {value : Literal} {call : Call} (hcall : value.call? = some call) :
      Operates (.literal value) ⟨[], [], [call], value.valueType⟩
  | classOf {ty ty' : Ty} (hty : Resolves env s ty ty') :
      Operates (.literal (.classOf ty))
        ⟨[], [], [.constant (.digest ty'.digest)], (Literal.classOf ty).valueType⟩
  | self : Operates .self ⟨[], [], [.op .getThis], Ty.root⟩
  | dup {ty : Ty} : Operates (.dup ty) ⟨[], [], [.dup ty.width], ty⟩
  | nothing : Operates .nothing ⟨[], [], [], Ty.void⟩
  | readLocal {name : String} {ty ty' : Ty} {slot : UInt16} (hty : Resolves env s ty ty')
      (hslot : s.slots.require name ty' = .ok slot) :
      Operates (.readLocal name ty) ⟨[], [], [.getLocal slot], ty'⟩
  | increment {name : String} {ty ty' : Ty} {value : Tree} {slot : UInt16} {delta : Int16}
      (hty : Resolves env s ty ty') (hslot : s.slots.require name ty' = .ok slot)
      (hfuse : env.options.fuseUpdates = true)
      (hdelta : Lowering.fusedDelta? name ty' value = some delta) :
      Operates (.assignLocal name ty value) ⟨[], [], [.incLocal slot delta], Ty.void⟩
  | assignLocal {name : String} {ty ty' : Ty} {value : Tree} {slot : UInt16}
      (hty : Resolves env s ty ty') (hslot : s.slots.require name ty' = .ok slot)
      (hplain : env.options.fuseUpdates = true → Lowering.fusedDelta? name ty' value = none) :
      Operates (.assignLocal name ty value) ⟨[], [value], [.setLocal slot], Ty.void⟩
  | access {tree access : Tree} (haccess : Accesses env s tree access)
      (hdirect : s.bridged env access = (none, s)) : Operates tree (directAccess access)
  | writeField {owner owner' ty : Ty} {name : String} {receiver : Option Tree} {value : Tree}
      (howner : Resolves env s owner owner') :
      Operates (.writeField owner name ty receiver value)
        ⟨[], receiver.toList ++ [value],
          [.digest (if receiver.isSome then .setField else .setStatic)
            (Digest.ofField owner'.digest name)], Ty.void⟩
  | enumConstant {ty ty' : Ty} {name : String} (hty : Resolves env s ty ty') :
      Operates (.enumConstant ty name)
        ⟨[], [], [.digest .getStatic (Digest.ofField ty'.digest name)], ty'⟩
  | arith {operator : ArithOp} {ty ty' : Ty} {left right : Tree} {opcode : Opcode}
      (hty : Resolves env s ty ty') (hopcode : operator.opcode? ty'.category = some opcode) :
      Operates (.arith operator ty left right) ⟨[], [left, right], [.op opcode], ty'⟩
  | compare {operator : CompareOp} {ty : Ty} {left right : Tree} {opcode : Opcode}
      (hty : Resolves env s (Lowering.comparedType left right) ty)
      (hopcode : operator.opcode? ty.category = some opcode) :
      Operates (.compare operator left right)
        ⟨[], [left, right], .op opcode :: if operator = .ne then [.op .not] else [], Ty.bool⟩
  | not {operand : Tree} : Operates (.not operand) ⟨[], [operand], [.op .not], Ty.bool⟩
  | cast {target target' source : Ty} {value : Tree} (htarget : Resolves env s target target')
      (hsource : Resolves env s value.valueType source) :
      Operates (.cast target value) ⟨[], [value], conversionCalls source target', target'⟩
  | instanceOf {ty ty' : Ty} {value : Tree} (hty : Resolves env s ty ty') :
      Operates (.instanceOf ty value) ⟨[], [value], [.digest .instanceOf ty'.digest], Ty.bool⟩
  | arrayLength {array : Tree} :
      Operates (.arrayLength array) ⟨[], [array], [.op .arrayLength], Ty.int⟩
  | arrayLoad {array index : Tree} {ty ty' arrayTy : Ty} (hty : Resolves env s ty ty')
      (harray : Resolves env s array.valueType arrayTy) :
      Operates (.arrayLoad array index ty)
        ⟨[], [array, index], .op .arrayLoad ::
          conversionCalls (arrayTy.element?.getD ty') ty', ty'⟩
  | arrayStore {array index value : Tree} :
      Operates (.arrayStore array index value)
        ⟨[], [array, index, value], [.op .arrayStore], Ty.void⟩
  | newArray {element element' : Ty} {length : Tree} (helement : Resolves env s element element') :
      Operates (.newArray element length)
        ⟨[], [length], [.digest .newArray element'.digest], .array element'⟩
  | raise {value : Tree} : Operates (.raise value) ⟨[], [value], [.op .raise], Ty.void⟩
  | monitorEnter {value : Tree} :
      Operates (.monitorEnter value) ⟨[], [value], [.op .monitorEnter], Ty.void⟩
  | monitorExit {value : Tree} :
      Operates (.monitorExit value) ⟨[], [value], [.op .monitorExit], Ty.void⟩

variable {env s} in
theorem Operates.not_isControl {tree : Tree} {operation : Operation}
    (h : Operates env s tree operation) : tree.isControl = false := by
  cases h with
  | access haccess => cases haccess <;> rfl
  | _ => rfl

/-- An arm over the ordinal of the enum constant it names. -/
inductive OrdinalArm : Arm → Arm → Prop
  | otherwise {body : Tree} : OrdinalArm ⟨none, body⟩ ⟨none, body⟩
  | constant {ty ty' : Ty} {name : String} {body : Tree} {ordinal : Nat}
      (hty : Resolves env s ty ty') (hordinal : env.nest.ordinal? ty' name = some ordinal) :
      OrdinalArm ⟨some (.enumConstant ty name), body⟩ (.new (.int (Int32.ofNat ordinal)) body)

/-- Trees that are replaced by another tree, in a scope for hidden variables. -/
inductive Rewrites : Tree → Tree → State → Prop
  | indexed {label : Option String} {binder : String} {ty ty' arrayTy : Ty} {source body : Tree}
      (hty : Resolves env s ty ty') (harray : Resolves env s source.valueType arrayTy) :
      Rewrites (.forEach label binder ty .indexed source body)
        (Lowering.indexedLoop label binder ty' source body arrayTy (s.freshName "$array")
          ((s.takeName "$array").freshName "$arrayIndex"))
        ((s.takeName "$array").takeName "$arrayIndex")
  | iterator {label : Option String} {binder : String} {ty ty' : Ty} {source body : Tree}
      (hty : Resolves env s ty ty') :
      Rewrites (.forEach label binder ty .iterator source body)
        (Lowering.iteratorLoop label binder ty' source body (s.freshName "$iterator"))
        (s.takeName "$iterator")
  | synchronized {lock body : Tree} {ty : Ty} (hty : Resolves env s lock.valueType ty) :
      Rewrites (.synchronized lock body)
        (.block
          [.monitorEnter (.block
            [lock, .declareLocal (s.freshName "$lock") ty (some (.dup ty))]),
           .guarded body [] (some (.monitorExit (.readLocal (s.freshName "$lock") ty)))])
        (s.takeName "$lock")
  | hashed {label : Option String} {kind : SwitchKind} {subject tree : Tree} {arms : List Arm}
      {ty : Ty} (hkind : kind = .text ∨ kind = .object)
      (hty : Resolves env s subject.valueType ty)
      (htree : Switch.hashed kind label subject arms ty (s.freshName "$subject") = .ok tree) :
      Rewrites (.switch label kind subject arms) tree (s.takeName "$subject")

/-- The key that a switch over ints dispatches on. -/
inductive SubjectKey : Tree → Tree → Prop
  | plain {subject : Tree} {ty : Ty} (hty : Resolves env s subject.valueType ty)
      (hprim : ty.prim?.any Prim.isSwitchable = true) : SubjectKey subject subject
  | unboxed {subject : Tree} {ty : Ty} {prim : Prim} (hty : Resolves env s subject.valueType ty)
      (hprim : ¬ ty.prim?.any Prim.isSwitchable = true)
      (hbox : ty.unboxed?.filter Prim.isSwitchable = some prim) :
      SubjectKey subject (.cast (.prim prim) subject)

/-- Where a transfer leads: the depth of the construct it leaves or goes on
with, and the label. -/
inductive Leaves : Tree → Nat → Label → Prop
  | breakTo {label : Option String} {depth : Nat} {flow : Flow}
      (hflow : s.flows.breakTarget? label = some (depth, flow)) :
      Leaves (.breakTo label) depth flow.exit
  | continueTo {label : Option String} {depth : Nat} {flow : Flow}
      (hflow : s.flows.continueTarget? label = some (depth, flow)) :
      Leaves (.continueTo label) depth flow.bodyExit
  | redirect {depth : Nat} {flow : Flow}
      (hflow : s.flows.innermostSwitch? = some (depth, flow)) :
      Leaves .redirect depth flow.bodyExit

/-- Where a failed condition leads, given the labels of the branch. -/
inductive Misses (body : Tree) (otherwise : Option Tree) (elseLabel done : Label) :
    Label → Option Lowering.Detour → State → Prop
  | plain (hbody : body.endsWithRedirect = false) :
      Misses body otherwise elseLabel done (if otherwise.isSome then elseLabel else done) none s
  | direct {depth : Nat} {flow : Flow} (hbody : body.endsWithRedirect = true)
      (hflow : s.flows.innermostSwitch? = some (depth, flow))
      (hcleanups : s.cleanups.length ≤ s.firstCleanupInside depth) :
      Misses body otherwise elseLabel done flow.bodyExit none s
  | detour {depth : Nat} {flow : Flow} (hbody : body.endsWithRedirect = true)
      (hflow : s.flows.innermostSwitch? = some (depth, flow))
      (hcleanups : s.firstCleanupInside depth < s.cleanups.length) :
      Misses body otherwise elseLabel done (s.label 0)
        (some ⟨s.label 0, s.firstCleanupInside depth, flow.bodyExit⟩) (s.emits .newLabel)

variable {s} in
theorem Misses.newLabels {body : Tree} {otherwise : Option Tree} {elseLabel done miss : Label}
    {detour : Option Lowering.Detour} {s' : State}
    (h : Misses s body otherwise elseLabel done miss detour s') : ∃ count, s' = s.newLabels count := by
  cases h with
  | plain | direct => exact ⟨0, rfl⟩
  | detour => exact ⟨1, rfl⟩

/-- The type that a returned value has. -/
def ReturnType (value : Tree) (ty : Ty) : Prop :=
  if s.result.isVoid then Resolves env s value.valueType ty else ty = s.result

end Relations

/-- What there is to lower. -/
inductive Job where
  | tree (tree : Tree)
  /-- A tree whose value is consumed. -/
  | value (tree : Tree)
  /-- A tree whose value is discarded. -/
  | statement (tree : Tree)
  | inScope (tree : Tree)
  | jumpIf (condition : Tree) (sense : Bool) (target : Label)
  /-- A copy of the cleanup at an index. -/
  | cleanup (index : Nat)
  /-- Copies of the cleanups from an index on. -/
  | cleanups (start : Nat)
  | detour (detour : Option Lowering.Detour)
  /-- The other side of a branch. -/
  | otherwise (elseLabel done : Label) (tree : Option Tree)
  /-- The test at the bottom of a loop. -/
  | loopTest (condition : Option Tree) (body : Label)
  | arm (otherwise : Label) (arm : Int32 × Tree) (target : Label)
  | clauses (start stop exit : Label) (cleanupIndex : Nat) (clauses : List Catch)
      (ranges : List (Label × Label))
  /-- The handler of all exceptions, if the region has a cleanup. -/
  | catchAll (cleanup : Option Tree) (ranges : List (Label × Label))
  | param (param : Param)
  | body (decl : RoutineDecl)
  | seq (jobs : List Job)

/-- Copies of all cleanups from index `start` on, innermost first. -/
def cleanupJobs (start count : Nat) : List Job :=
  (List.range (count - start)).map fun i => .cleanup (count - 1 - i)

/-- The condition is tested as a value. -/
def Tree.isTested : Tree → Bool
  | .logical .. | .not _ | .literal (.bool _) => false
  | _ => true

theorem Tree.isTested_of_forall_ne {tree : Tree}
    (hlogical : ∀ operator left right, tree = .logical operator left right → False)
    (hnot : ∀ operand, tree = .not operand → False)
    (hliteral : ∀ value, tree = .literal (.bool value) → False) : tree.isTested = true := by
  unfold Tree.isTested
  split
  · exact (hlogical _ _ _ rfl).elim
  · exact (hnot _ rfl).elim
  · exact (hliteral _ rfl).elim
  · rfl

/-- The call that dispatches on a key. -/
def dispatchCall (encoding : Switch.Encoding) (otherwise : Label)
    (targets : List (Int32 × Label)) : Call :=
  match encoding, targets.head?, targets.getLast? with
  | .table, some (low, _), some (high, _) =>
    .tableSwitch low high otherwise (targets.map Prod.snd)
  | _, _, _ => .lookupSwitch otherwise targets

def State.loopLabels (s : State) : Lowering.LoopLabels :=
  ⟨s.label 0, s.label 1, s.label 2, s.label 3⟩

/-- A job takes the first state to the second one. -/
inductive Lowers (env : Env) : Job → State → State → Prop
  | value {tree : Tree} {s m : State} (htree : Lowers env (.tree tree) s.enterExpression m) :
      Lowers env (.value tree) s m.exitExpression
  | statement {tree : Tree} {s m : State} (htree : Lowers env (.tree tree) (s.withDepth 0) m) :
      Lowers env (.statement tree) s (m.withDepth s.expressionDepth)
  | inScope {tree : Tree} {s m : State} (htree : Lowers env (.statement tree) s.enterScope m) :
      Lowers env (.inScope tree) s m.exitScope
  | nil {s : State} : Lowers env (.seq []) s s
  | cons {job : Job} {rest : List Job} {s m s' : State} (hjob : Lowers env job s m)
      (hrest : Lowers env (.seq rest) m s') : Lowers env (.seq (job :: rest)) s s'
  | operation {tree : Tree} {operation : Operation} {s m : State}
      (hoperation : Operates env s tree operation)
      (hoperands : Lowers env (.seq (operation.operands.map .value))
        (s.emitsAll operation.first) m) :
      Lowers env (.tree tree) s ((m.emitsAll operation.last).discard operation.result)
  | bridged {tree access use : Tree} {s t s' : State} (haccess : Accesses env s tree access)
      (hbridged : s.bridged env access = (some use, t)) (huse : Lowers env (.tree use) t s') :
      Lowers env (.tree tree) s s'
  | rewritten {tree rewritten : Tree} {s t m : State}
      (hrewrites : Rewrites env s.enterSlotScope tree rewritten t)
      (hrewritten : Lowers env (.tree rewritten) t m) :
      Lowers env (.tree tree) s m.exitSlotScope
  | enumSwitch {label : Option String} {subject : Tree} {arms ordinals : List Arm}
      {s s' : State} (harms : List.Forall₂ (OrdinalArm env s) arms ordinals)
      (hswitch : Lowers env (.tree (.switch label .int
        (.invoke .virtual Ty.enumRoot ⟨"ordinal", Ty.int, []⟩ (some subject) []) ordinals)) s s') :
      Lowers env (.tree (.switch label .enum subject arms)) s s'
  | block {trees : List Tree} {s s' : State} (htrees : Lowers env (.seq (trees.map .tree)) s s') :
      Lowers env (.tree (.block trees)) s s'
  | declared {name : String} {ty ty' : Ty} {slot : UInt16} {slots : Slots} {s : State}
      (hty : Resolves env s ty ty') (hslot : s.slots.declare name ty' = (.ok slot, slots)) :
      Lowers env (.tree (.declareLocal name ty none)) s (s.withSlots slots)
  | initialized {name : String} {ty ty' : Ty} {value : Tree} {slot : UInt16} {slots : Slots}
      {s m : State} (hty : Resolves env s ty ty') (hvalue : Lowers env (.value value) s m)
      (hslot : m.slots.declare name ty' = (.ok slot, slots)) :
      Lowers env (.tree (.declareLocal name ty (some value))) s
        ((m.withSlots slots).emits (.setLocal slot))
  | sameJumps {operator : LogicalOp} {left right : Tree} {sense : Bool} {target : Label}
      {s m s' : State} (hsense : (operator == .or) = sense)
      (hleft : Lowers env (.jumpIf left sense target) s m)
      (hright : Lowers env (.jumpIf right sense target) m s') :
      Lowers env (.jumpIf (.logical operator left right) sense target) s s'
  | skipJumps {operator : LogicalOp} {left right : Tree} {sense : Bool} {target : Label}
      {s m m' : State} (hsense : ¬ (operator == .or) = sense)
      (hleft : Lowers env (.jumpIf left (!sense) (s.label 0)) (s.emits .newLabel) m)
      (hright : Lowers env (.jumpIf right sense target) m m') :
      Lowers env (.jumpIf (.logical operator left right) sense target) s
        (m'.emits (.bind (s.label 0)))
  | notJumps {operand : Tree} {sense : Bool} {target : Label} {s s' : State}
      (hoperand : Lowers env (.jumpIf operand (!sense) target) s s') :
      Lowers env (.jumpIf (.not operand) sense target) s s'
  | literalJumps {sense : Bool} {target : Label} {s : State} :
      Lowers env (.jumpIf (.literal (.bool sense)) sense target) s
        (s.emits (.jump .jump target))
  | literalSkips {value sense : Bool} {target : Label} {s : State} (hsense : value ≠ sense) :
      Lowers env (.jumpIf (.literal (.bool value)) sense target) s s
  | testJumps {condition : Tree} {sense : Bool} {target : Label} {s m : State}
      (htested : condition.isTested = true) (hvalue : Lowers env (.value condition) s m) :
      Lowers env (.jumpIf condition sense target) s
        (m.emits (.jump (if sense then .jumpIfTrue else .jumpIfFalse) target))
  | logical {operator : LogicalOp} {left right : Tree} {s m : State}
      (hjumps : Lowers env (.jumpIf (.logical operator left right) false (s.label 0))
        (s.newLabels 2) m) :
      Lowers env (.tree (.logical operator left right)) s
        ((m.emitsAll [.bool true, .jump .jump (s.label 1), .bind (s.label 0), .bool false,
          .bind (s.label 1)]).discard Ty.bool)
  | cleanup {index : Nat} {cleanup : Cleanup} {rest : List Cleanup} {s m : State}
      (htaken : s.cleanups.drop index = cleanup :: rest)
      (hbody : Lowers env (.inScope cleanup.body) (s.takeCleanups index).2 m) :
      Lowers env (.cleanup index) s (m.restoreCleanups (cleanup :: rest))
  | noCleanup {index : Nat} {s : State} (htaken : s.cleanups.drop index = []) :
      Lowers env (.cleanup index) s s
  | cleanups {start : Nat} {s s' : State}
      (hcopies : Lowers env (.seq (cleanupJobs start s.cleanups.length)) s s') :
      Lowers env (.cleanups start) s s'
  | leave {tree : Tree} {depth : Nat} {target : Label} {s m : State}
      (hleaves : Leaves s tree depth target)
      (hcleanups : Lowers env (.cleanups (s.firstCleanupInside depth)) s m) :
      Lowers env (.tree tree) s (m.emits (.jump .jump target))
  | returnVoid {s m : State} (hcleanups : Lowers env (.cleanups 0) s m) :
      Lowers env (.tree (.ret none)) s (m.emits (.op .returnVoid))
  | returnValue {value : Tree} {ty : Ty} {s m : State} (hty : ReturnType env s value ty)
      (hvalue : Lowers env (.value value) s m) (hempty : m.cleanups = []) :
      Lowers env (.tree (.ret (some value))) s (m.emits (.ret ty))
  | returnSaved {value : Tree} {ty : Ty} {slot : UInt16} {slots : Slots} {s m m' : State}
      (hty : ReturnType env s value ty) (hvalue : Lowers env (.value value) s m)
      (hcleanups : m.cleanups ≠ [])
      (hslot : (m.enterSlotScope.takeName "$result").slots.declare
        (m.enterSlotScope.freshName "$result") ty = (.ok slot, slots))
      (hcopies : Lowers env (.cleanups 0)
        (((m.enterSlotScope.takeName "$result").withSlots slots).emits (.setLocal slot)) m') :
      Lowers env (.tree (.ret (some value))) s
        (m'.emitsAll [.getLocal slot, .ret ty]).exitSlotScope
  | branch {condition body : Tree} {otherwise : Option Tree} {miss : Label}
      {detour : Option Lowering.Detour} {s t m₁ m₂ m₃ m₄ : State}
      (hmiss : Misses (s.newLabels 4) body otherwise (s.label 2) (s.label 3) miss detour t)
      (hcondition : Lowers env (.jumpIf condition false miss) (t.emits (.bind (s.label 0))) m₁)
      (hbody : Lowers env (.inScope body) (m₁.emits (.bind (s.label 1))) m₂)
      (hdetour : Lowers env (.detour detour) m₂ m₃)
      (hotherwise : Lowers env (.otherwise (s.label 2) (s.label 3) otherwise) m₃ m₄) :
      Lowers env (.tree (.branch condition body otherwise)) s (m₄.emits (.bind (s.label 3)))
  | noDetour {s : State} : Lowers env (.detour none) s s
  | detour {detour : Lowering.Detour} {s m : State}
      (hcleanups : Lowers env (.cleanups detour.start) (s.emits (.bind detour.label)) m) :
      Lowers env (.detour (some detour)) s (m.emits (.jump .jump detour.target))
  | noElse {elseLabel done : Label} {s : State} :
      Lowers env (.otherwise elseLabel done none) s s
  | hasElse {elseLabel done : Label} {tree : Tree} {s s' : State}
      (htree : Lowers env (.inScope tree)
        (s.emitsAll [.jump .jump done, .bind elseLabel]) s') :
      Lowers env (.otherwise elseLabel done (some tree)) s s'
  | forLoop {label : Option String} {init update : List Tree} {condition : Option Tree}
      {body : Tree} {s m₁ m₂ m₃ m₄ : State}
      (hinit : Lowers env (.seq (init.map .statement)) s.enterScope m₁)
      (hbody : Lowers env (.inScope body)
        ((((m₁.newLabels 4).emits (.jump .jump m₁.loopLabels.condition)).pushFlow
          (m₁.loopLabels.flow label m₁.loopLabels.update)).emits (.bind m₁.loopLabels.body)) m₂)
      (hupdate : Lowers env (.seq (update.map .statement))
        (m₂.emits (.bind m₁.loopLabels.update)) m₃)
      (htest : Lowers env (.loopTest condition m₁.loopLabels.body)
        (m₃.popFlow.emits (.bind m₁.loopLabels.condition)) m₄) :
      Lowers env (.tree (.forLoop label init condition update body)) s
        (m₄.emits (.bind m₁.loopLabels.exit)).exitScope
  | whileLoop {label : Option String} {condition body : Tree} {bodyFirst : Bool}
      {s m₁ m₂ : State}
      (hbody : Lowers env (.inScope body)
        ((((s.newLabels 4).emitsAll
          (if bodyFirst then [] else [.jump .jump s.loopLabels.condition])).pushFlow
            (s.loopLabels.flow label s.loopLabels.condition)).emits (.bind s.loopLabels.body)) m₁)
      (htest : Lowers env (.jumpIf condition true s.loopLabels.body)
        (m₁.popFlow.emits (.bind s.loopLabels.condition)) m₂) :
      Lowers env (.tree (.whileLoop label condition body bodyFirst)) s
        (m₂.emits (.bind s.loopLabels.exit))
  | tested {condition : Tree} {body : Label} {s s' : State}
      (hcondition : Lowers env (.jumpIf condition true body) s s') :
      Lowers env (.loopTest (some condition) body) s s'
  | endless {body : Label} {s : State} :
      Lowers env (.loopTest none body) s (s.emits (.jump .jump body))
  | intSwitch {label : Option String} {subject key : Tree} {arms : List Arm}
      {keyed dispatched : List (Int32 × Tree)} {defaultBody : Option Tree}
      {encoding : Switch.Encoding} {targets : List (Int32 × Label)} {s m₁ m₂ m₃ m₄ : State}
      (hkey : SubjectKey env s subject key)
      (hkeyed : Switch.collectArms (.switch label .int subject arms) arms =
        .ok (keyed, defaultBody))
      (hencoding : encoding = Switch.Encoding.choose (keyed.map Prod.fst))
      (hdispatched : Lowering.dispatchedArms encoding env.options.maxTableEntries keyed =
        .ok dispatched)
      (hvalue : Lowers env (.value key)
        (((s.newLabels 4).emits (.bind (s.label 0))).pushFlow
          ⟨.switch, label, s.label 0, s.label 1, s.label 2, s.label 3⟩) m₁)
      (htargets : m₁.armTargets (s.label 2) dispatched = (targets, m₂))
      (harms : Lowers env
        (.seq ((dispatched.zip targets).map fun pair => .arm (s.label 2) pair.1 pair.2.2))
        (m₂.emitsAll [dispatchCall encoding (s.label 2) targets, .bind (s.label 1)]) m₃)
      (hdefault : Lowers env (.seq (defaultBody.toList.map .inScope))
        (m₃.emits (.bind (s.label 2))) m₄) :
      Lowers env (.tree (.switch label .int subject arms)) s
        (m₄.popFlow.emits (.bind (s.label 3)))
  | sharedArm {otherwise : Label} {arm : Int32 × Tree} {s : State} :
      Lowers env (.arm otherwise arm otherwise) s s
  | arm {otherwise target : Label} {arm : Int32 × Tree} {s s' : State}
      (htarget : target ≠ otherwise)
      (hbody : Lowers env (.inScope arm.2) (s.emits (.bind target)) s') :
      Lowers env (.arm otherwise arm target) s s'
  | guarded {body : Tree} {catches : List Catch} {cleanup : Option Tree}
      {ranges : List (Label × Label)} {s m₁ m₂ m₃ m₄ : State}
      (hbody : Lowers env (.inScope body)
        (((s.newLabels 3).pushCleanup? cleanup).emits (.bind (s.label 0))) m₁)
      (hcleanups : Lowers env (.cleanups s.cleanups.length) (m₁.emits (.bind (s.label 1))) m₂)
      (hclauses : Lowers env
        (.clauses (s.label 0) (s.label 1) (s.label 2) s.cleanups.length catches ranges)
        (m₂.emits (.jump .jump (s.label 2))) m₃)
      (hcatchAll : Lowers env
        (.catchAll (m₃.pending? cleanup) ((s.label 0, s.label 1) :: ranges))
        (m₃.popCleanup? cleanup) m₄) :
      Lowers env (.tree (.guarded body catches cleanup)) s (m₄.emits (.bind (s.label 2)))
  | noClauses {start stop exit : Label} {cleanupIndex : Nat} {s : State} :
      Lowers env (.clauses start stop exit cleanupIndex [] []) s s
  | clause {start stop exit : Label} {cleanupIndex : Nat} {clause : Catch} {rest : List Catch}
      {ranges : List (Label × Label)} {ty : Ty} {slot : UInt16} {slots : Slots}
      {s m m' s' : State} (hty : Resolves env s clause.ty ty)
      (hslot : ((s.newLabels 2).emitsAll
        [.bind (s.label 0), .region start stop (s.label 0) (some ty.digest)]).enterScope.slots.declare
          clause.binder ty = (.ok slot, slots))
      (hbody : Lowers env (.statement clause.body)
        ((((s.newLabels 2).emitsAll
          [.bind (s.label 0), .region start stop (s.label 0) (some ty.digest)]).enterScope.withSlots
            slots).emits (.setLocal slot)) m)
      (hcleanups : Lowers env (.cleanups cleanupIndex) (m.exitScope.emits (.bind (s.label 1))) m')
      (hrest : Lowers env (.clauses start stop exit cleanupIndex rest ranges)
        (m'.emits (.jump .jump exit)) s') :
      Lowers env (.clauses start stop exit cleanupIndex (clause :: rest)
        ((s.label 0, s.label 1) :: ranges)) s s'
  | noCatchAll {ranges : List (Label × Label)} {s : State} :
      Lowers env (.catchAll none ranges) s s
  | catchAll {cleanup : Tree} {ranges : List (Label × Label)} {slot : UInt16} {slots : Slots}
      {s t m : State}
      (ht : t = ((s.newLabels 1).emitsAll (.bind (s.label 0) ::
        ranges.map fun range => .region range.1 range.2 (s.label 0) none)).enterSlotScope)
      (hslot : (t.takeName "$throwable").slots.declare (t.freshName "$throwable") Ty.throwable =
        (.ok slot, slots))
      (hbody : Lowers env (.inScope cleanup)
        (((t.takeName "$throwable").withSlots slots).emits (.setLocal slot)) m) :
      Lowers env (.catchAll (some cleanup) ranges) s
        (m.emitsAll [.getLocal slot, .op .raise]).exitSlotScope
  | bodiless {method : Method} {s : State}
      (hdecl : RoutineDecl.ofMethod? s.currentType method = none) :
      Lowers env (.tree (.localRoutine method)) s s
  | localRoutine {method : Method} {decl : RoutineDecl} {output : RoutineOutput} {s t : State}
      (hdecl : RoutineDecl.ofMethod? s.currentType method = some decl)
      (hbody : Lowers env (.body decl) (.initial env.nest s.shared decl.info) t)
      (houtput : t.finish = .ok output) :
      Lowers env (.tree (.localRoutine method)) s
        { s.withShared t.shared with
          localRoutines := s.localRoutines ++
            (Lowering.assembleRoutine decl output).1 :: output.localRoutines }
  | param {param : Param} {ty : Ty} {slot : UInt16} {slots : Slots} {s : State}
      (hty : Resolves env s param.ty ty)
      (hslot : s.slots.declare param.name ty = (.ok slot, slots)) :
      Lowers env (.param param) s (s.withSlots slots)
  | body {decl : RoutineDecl} {s t m : State}
      (hparams : Lowers env (.seq (decl.params.map .param))
        (s.reserveAll decl.body.variableNames) t)
      (hbody : Lowers env (.statement decl.body) t m) :
      Lowers env (.body decl) s (m.emitsAll
        (if decl.result.isVoid && !decl.body.endsInTransfer then [.op .returnVoid] else []))

end StackLowering
