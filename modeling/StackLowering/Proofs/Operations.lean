import StackLowering.Proofs.Derivation
/-!
Trees that are an instruction with operands. Their handlers first find out which
calls to make and which operands to lower, and then do so. An access is made so
too, unless it goes through a bridge.
-/

namespace StackLowering

open Lower

@[simp]
theorem State.discard_void (s : State) : s.discard Ty.void = s := by
  unfold discard
  split_ifs <;> rfl

theorem Lower.discard_void : discard Ty.void = pure () := by
  funext env s
  change (Except.ok (), s.discard Ty.void) = _
  rw [State.discard_void]
  rfl

section Opcodes

variable {op : Opcode}

/-- The opcode stands alone. -/
def Opcode.Bare (op : Opcode) : Prop := op.operandSize = 0 ∧ op.isSwitch = false

theorem ArithOp.bare_of_opcode? {operator : ArithOp} {category : Category}
    (h : operator.opcode? category = some op) : op.Bare := by
  cases operator <;> cases category <;> cases h <;> exact ⟨rfl, rfl⟩

theorem CompareOp.bare_of_opcode? {operator : CompareOp} {category : Category}
    (h : operator.opcode? category = some op) : op.Bare := by
  cases operator <;> cases category <;> cases h <;> exact ⟨rfl, rfl⟩

theorem Category.bare_of_convert? {source target : Category}
    (h : source.convert? target = some op) : op.Bare := by
  cases source <;> cases target <;> cases h <;> exact ⟨rfl, rfl⟩

theorem Prim.bare_of_narrow? {source target : Prim} (h : source.narrow? target = some op) :
    op.Bare := by
  cases source <;> cases target <;> cases h <;> exact ⟨rfl, rfl⟩

theorem Prim.bare_of_mem_conversion {source target : Prim} (h : op ∈ source.conversion target) :
    op.Bare := by
  unfold conversion at h
  split_ifs at h
  · cases h
  · rcases List.mem_append.mp h with hconvert | hnarrow
    · exact Category.bare_of_convert? (Option.mem_toList.mp hconvert)
    · exact bare_of_narrow? (Option.mem_toList.mp hnarrow)

end Opcodes

/-- The calls that operations make; `named` holds of the variables they may name. None of
them is about labels, regions or scopes. -/
def Call.Computes (named : UInt16 → Prop) : Call → Prop
  | .op code => code.Bare
  | .digest code _ => code.takesDigest = true
  | .getLocal slot | .setLocal slot | .incLocal slot _ => named slot
  | .constant _ | .int _ | .bool _ | .dup _ | .invoke .. | .create .. => True
  | _ => False

section Calls

variable {named : UInt16 → Prop}

theorem Call.computes_of_mem_conversionCalls {source target : Ty} {call : Call}
    (h : call ∈ conversionCalls source target) : call.Computes named := by
  unfold conversionCalls at h
  split at h
  · cases h
  · split at h
    · obtain ⟨op, hop, rfl⟩ := List.mem_map.mp h
      exact Prim.bare_of_mem_conversion hop
    · split_ifs at h
      · cases h
      · rw [List.mem_singleton.mp h]
        exact rfl

theorem computes_directAccess (access : Tree) :
    (∀ call ∈ (directAccess access).first, call.Computes named) ∧
      ∀ call ∈ (directAccess access).last, call.Computes named := by
  cases access with
  | readField owner name ty receiver =>
    refine ⟨List.forall_mem_nil _, List.forall_mem_singleton.mpr ?_⟩
    cases receiver <;> rfl
  | invoke kind owner method receiver args =>
    have hthis : (Call.op .getThis).Computes named := ⟨rfl, rfl⟩
    refine ⟨?_, List.forall_mem_singleton.mpr trivial⟩
    cases kind <;> cases receiver <;> simp [directAccess, impliedReceiver, hthis]
  | create ty params args => exact ⟨List.forall_mem_nil _, List.forall_mem_singleton.mpr trivial⟩
  | _ => exact ⟨List.forall_mem_nil _, List.forall_mem_nil _⟩

/-- The calls of an operation name only the variable that its tree does. -/
theorem Operates.computes {env : Env} {s : State} {tree : Tree} {operation : Operation}
    (h : Operates env s tree operation) (named : UInt16 → Prop) (hnamed : ∀ {name : String} {ty : Ty} {slot : UInt16},
      s.slots.require name ty = .ok slot → named slot) :
    (∀ call ∈ operation.first, call.Computes fun _ => False) ∧
      ∀ call ∈ operation.last, call.Computes named := by
  cases h with
  | access => exact ⟨(computes_directAccess _).1, (computes_directAccess _).2⟩
  | @literal value _ hcall =>
    refine ⟨List.forall_mem_nil _, List.forall_mem_singleton.mpr ?_⟩
    cases value <;> cases hcall
    · exact ⟨rfl, rfl⟩
    all_goals exact trivial
  | readLocal _ hslot | increment _ hslot | assignLocal _ hslot =>
    exact ⟨List.forall_mem_nil _, List.forall_mem_singleton.mpr (hnamed hslot)⟩
  | @writeField _ _ _ _ receiver =>
    refine ⟨List.forall_mem_nil _, List.forall_mem_singleton.mpr ?_⟩
    cases receiver <;> rfl
  | arith _ hopcode =>
    exact ⟨List.forall_mem_nil _,
      List.forall_mem_singleton.mpr (ArithOp.bare_of_opcode? hopcode)⟩
  | compare _ hopcode =>
    refine ⟨List.forall_mem_nil _,
      List.forall_mem_cons.mpr ⟨CompareOp.bare_of_opcode? hopcode, ?_⟩⟩
    split_ifs
    · exact List.forall_mem_singleton.mpr ⟨rfl, rfl⟩
    · exact List.forall_mem_nil _
  | cast => exact ⟨List.forall_mem_nil _, fun _ => Call.computes_of_mem_conversionCalls⟩
  | arrayLoad =>
    exact ⟨List.forall_mem_nil _,
      List.forall_mem_cons.mpr ⟨⟨rfl, rfl⟩, fun _ => Call.computes_of_mem_conversionCalls⟩⟩
  | nothing => exact ⟨List.forall_mem_nil _, List.forall_mem_nil _⟩
  | classOf | dup => exact ⟨List.forall_mem_nil _, List.forall_mem_singleton.mpr trivial⟩
  | enumConstant | instanceOf | newArray =>
    exact ⟨List.forall_mem_nil _, List.forall_mem_singleton.mpr rfl⟩
  | _ => exact ⟨List.forall_mem_nil _, List.forall_mem_singleton.mpr ⟨rfl, rfl⟩⟩

end Calls

/-- The tree is an instruction with operands that needs no bridge. -/
def Tree.isOperation : Tree → Bool
  | .literal _ | .self | .dup _ | .nothing | .readLocal .. | .assignLocal .. => true
  | .writeField .. | .enumConstant .. | .arith .. | .compare .. | .not _ | .cast .. => true
  | .instanceOf .. | .arrayLength _ | .arrayLoad .. | .arrayStore .. | .newArray .. => true
  | .raise _ | .monitorEnter _ | .monitorExit _ => true
  | _ => false

namespace Lowering

section Updates

variable {name : String} {value : Tree} {ty : Ty}

theorem readsInt_iff {tree : Tree} :
    readsInt name tree = true ↔ tree = .readLocal name Ty.int := by
  cases tree <;> simp [readsInt]

/-- The value is a sum of the variable and a constant, or the variable less a constant. -/
inductive AddsConstant (name : String) : Tree → Int → Prop
  | right (c : Int32) :
      AddsConstant name (.arith .add Ty.int (.readLocal name Ty.int) (.literal (.int c))) c.toInt
  | left (c : Int32) :
      AddsConstant name (.arith .add Ty.int (.literal (.int c)) (.readLocal name Ty.int)) c.toInt
  | less (c : Int32) :
      AddsConstant name (.arith .sub Ty.int (.readLocal name Ty.int) (.literal (.int c))) (-c.toInt)

theorem addedConstant?_eq_some {delta : Int} :
    addedConstant? name value = some delta ↔ AddsConstant name value delta := by
  constructor
  · intro h
    unfold addedConstant? at h
    split at h
    · dsimp only at h
      split at h
      · rename_i c hoperand
        obtain rfl := Option.some.inj h
        split_ifs at hoperand with hleft hright
        · obtain rfl := Option.some.inj hoperand
          rw [readsInt_iff.mp hleft]
          exact .right c
        · obtain rfl := Option.some.inj hoperand
          rw [readsInt_iff.mp ((Bool.and_eq_true _ _).mp hright).2]
          exact .left c
      · rename_i c hoperand
        obtain rfl := Option.some.inj h
        split_ifs at hoperand with hleft hright
        · obtain rfl := Option.some.inj hoperand
          rw [readsInt_iff.mp hleft]
          exact .less c
        · exact absurd hright Bool.false_ne_true
      · cases h
    · cases h
  · rintro (_ | _ | _) <;> simp [addedConstant?, readsInt, ArithOp.isCommutative, Ty.int]

theorem fusedDelta?_eq_some {delta : Int16} :
    fusedDelta? name ty value = some delta ↔ ty = Ty.int ∧ AddsConstant name value delta.toInt := by
  unfold fusedDelta?
  split_ifs with hty
  · rw [Option.bind_eq_some_iff]
    constructor
    · rintro ⟨added, hadded, h⟩
      split_ifs at h with hfits
      obtain rfl := Option.some.inj h
      rw [Int16.toInt_ofInt_of_le hfits.1 (by omega)]
      exact ⟨hty, addedConstant?_eq_some.mp hadded⟩
    · rintro ⟨_, hadds⟩
      have hlower := delta.le_toInt
      have hupper := delta.toInt_lt
      refine ⟨_, addedConstant?_eq_some.mpr hadds, ?_⟩
      rw [if_pos (by omega), Int16.ofInt_toInt]
  · simp [hty]

end Updates

/-- Find out what the tree stands for. -/
def operation : Tree → Lower Operation
  | .literal (.classOf ty) => do
    let resolved ← resolve ty
    return ⟨[], [], [.constant (.digest resolved.digest)], (Literal.classOf ty).valueType⟩
  | .literal value => return ⟨[], [], value.call?.toList, value.valueType⟩
  | .self => return ⟨[], [], [.op .getThis], Ty.root⟩
  | .dup ty => return ⟨[], [], [.dup ty.width], ty⟩
  | .readLocal name ty => do
    let resolved ← resolve ty
    let slot ← require name resolved (.readLocal name ty)
    return ⟨[], [], [.getLocal slot], resolved⟩
  | .assignLocal name ty value => do
    let resolved ← resolve ty
    let slot ← require name resolved (.assignLocal name ty value)
    let fused := if (← options).fuseUpdates then fusedDelta? name resolved value else none
    return fused.elim ⟨[], [value], [.setLocal slot], Ty.void⟩
      fun delta => ⟨[], [], [.incLocal slot delta], Ty.void⟩
  | .writeField owner name _ receiver value => do
    let owner ← resolve owner
    return ⟨[], receiver.toList ++ [value],
      [.digest (if receiver.isSome then .setField else .setStatic)
        (Digest.ofField owner.digest name)], Ty.void⟩
  | .enumConstant ty name => do
    let ty ← resolve ty
    return ⟨[], [], [.digest .getStatic (Digest.ofField ty.digest name)], ty⟩
  | .arith operator ty left right => do
    let ty ← resolve ty
    match operator.opcode? ty.category with
    | none => throw (.invalidOperand operator.name ty)
    | some opcode => return ⟨[], [left, right], [.op opcode], ty⟩
  | .compare operator left right => do
    let ty ← resolve (comparedType left right)
    match operator.opcode? ty.category with
    | none => throw (.invalidOperand operator.name ty)
    | some opcode =>
      return ⟨[], [left, right], .op opcode :: if operator = .ne then [.op .not] else [], Ty.bool⟩
  | .not operand => return ⟨[], [operand], [.op .not], Ty.bool⟩
  | .cast target value => do
    let target ← resolve target
    let source ← resolve value.valueType
    return ⟨[], [value], conversionCalls source target, target⟩
  | .instanceOf ty value => do
    let ty ← resolve ty
    return ⟨[], [value], [.digest .instanceOf ty.digest], Ty.bool⟩
  | .arrayLength array => return ⟨[], [array], [.op .arrayLength], Ty.int⟩
  | .arrayLoad array index ty => do
    let ty ← resolve ty
    let arrayTy ← resolve array.valueType
    return ⟨[], [array, index],
      .op .arrayLoad :: conversionCalls (arrayTy.element?.getD ty) ty, ty⟩
  | .arrayStore array index value =>
    return ⟨[], [array, index, value], [.op .arrayStore], Ty.void⟩
  | .newArray element length => do
    let element ← resolve element
    return ⟨[], [length], [.digest .newArray element.digest], .array element⟩
  | .raise value => return ⟨[], [value], [.op .raise], Ty.void⟩
  | .monitorEnter value => return ⟨[], [value], [.op .monitorEnter], Ty.void⟩
  | .monitorExit value => return ⟨[], [value], [.op .monitorExit], Ty.void⟩
  | _ => return ⟨[], [], [], Ty.void⟩

/-- Emit the instruction of an operation and its operands. -/
def perform (recur : Recur) (operation : Operation) : Lower Unit := do
  operation.first.forM fun call => emit call.run
  recur.values operation.operands
  operation.last.forM fun call => emit call.run
  discard operation.result

theorem convert_eq (source target : Ty) :
    convert source target = (conversionCalls source target).forM fun call => emit call.run := by
  unfold convert conversionCalls
  by_cases hnone : source = target ∨ target.isVoid = true
  · rw [if_pos hnone, if_pos hnone]
    rfl
  · rw [if_neg hnone, if_neg hnone]
    cases source <;> cases target <;> dsimp only
    case prim.prim =>
      rw [List.forM_eq_forM, List.forM_eq_forM, List.forM_map]
      rfl
    all_goals
      split_ifs
      · rfl
      · rw [List.forM_eq_forM, List.forM_cons, List.forM_nil]
        rfl

theorem tree_eq_operation (recur : Recur) {tree : Tree} (h : tree.isOperation = true) :
    Lowering.tree recur tree = operation tree >>= perform recur := by
  have hfirst (operands : List Tree) (last : List Call) (ty : Ty) :
      perform recur ⟨[], operands, last, ty⟩ = (do
        recur.values operands
        last.forM fun call => emit call.run
        discard ty) := by
    simp [perform]
  cases tree with
  | literal value =>
    cases value <;>
      simp [Lowering.tree, literal, pushLiteral, operation, hfirst, Recur.values, Literal.call?] <;>
      rfl
  | writeField owner name ty receiver value =>
    cases receiver <;>
      simp [Lowering.tree, writeField, operation, hfirst, Recur.values, discard_void] <;> rfl
  | assignLocal name ty value =>
    simp only [Lowering.tree, assignLocal, operation, bind_assoc, pure_bind]
    refine bind_congr fun resolved => bind_congr fun slot => bind_congr fun options => ?_
    cases if options.fuseUpdates then fusedDelta? name resolved value else none <;>
      simp [hfirst, Recur.values, discard_void] <;> rfl
  | arith operator ty left right =>
    simp only [Lowering.tree, arith, operation, bind_assoc]
    refine bind_congr fun ty => ?_
    cases operator.opcode? ty.category <;> simp [hfirst, Recur.values] <;> rfl
  | compare operator left right =>
    simp only [Lowering.tree, compare, operation, bind_assoc]
    refine bind_congr fun ty => ?_
    cases operator.opcode? ty.category with
    | none => rfl
    | some opcode => split_ifs <;> simp [hfirst, Recur.values] <;> rfl
  | self | dup | nothing | readLocal | enumConstant | not | cast | instanceOf | arrayLength
    | arrayLoad | arrayStore | newArray | raise | monitorEnter | monitorExit =>
    simp [Lowering.tree, self, dup, readLocal, enumConstant, not, cast, instanceOf, arrayLength,
      arrayLoad, arrayStore, newArray, raise, monitorEnter, monitorExit, convert_eq, operation,
      hfirst, Recur.values, discard_void] <;> rfl
  | _ => cases h

theorem runs_operation {env : Env} {tree : Tree} {op : Operation} {s s' : State}
    (htree : tree.isOperation = true) (h : Runs (operation tree) env s op s') :
    Operates env s tree op ∧ s = s' := by
  cases tree with
  | literal value =>
    cases value with
    | classOf ty =>
      simp only [operation, runs_bind, runs_resolve, runs_pure] at h
      obtain ⟨_, _, ⟨hty, rfl⟩, rfl, rfl⟩ := h
      exact ⟨.classOf hty, rfl⟩
    | _ =>
      obtain ⟨rfl, rfl⟩ := runs_pure.mp h
      exact ⟨.literal rfl, rfl⟩
  | readLocal name ty =>
    simp only [operation, runs_bind, runs_resolve, runs_require, runs_pure] at h
    obtain ⟨_, _, ⟨hty, rfl⟩, _, _, ⟨hslot, rfl⟩, rfl, rfl⟩ := h
    exact ⟨.readLocal hty hslot, rfl⟩
  | assignLocal name ty value =>
    simp only [operation, runs_bind, runs_resolve, runs_require, runs_options, runs_pure] at h
    obtain ⟨resolved, _, ⟨hty, rfl⟩, _, _, ⟨hslot, rfl⟩, _, _, ⟨rfl, rfl⟩, rfl, rfl⟩ := h
    cases hfuse : env.options.fuseUpdates with
    | false => exact ⟨.assignLocal hty hslot fun hon => absurd (hfuse.symm.trans hon) Bool.false_ne_true, rfl⟩
    | true =>
      cases hdelta : fusedDelta? name resolved value with
      | none => simpa [hdelta] using .assignLocal hty hslot fun _ => hdelta
      | some delta => simpa [hdelta] using .increment hty hslot hfuse hdelta
  | arith operator ty left right | compare operator left right =>
    simp only [operation, runs_bind, runs_resolve] at h
    obtain ⟨resolved, _, ⟨hty, rfl⟩, h⟩ := h
    cases hopcode : operator.opcode? resolved.category with
    | none =>
      rw [hopcode] at h
      exact absurd h runs_throw
    | some opcode =>
      simp only [hopcode, runs_pure] at h
      obtain ⟨rfl, rfl⟩ := h
      exact ⟨by constructor <;> assumption, rfl⟩
  | writeField | enumConstant | instanceOf | newArray =>
    simp only [operation, runs_bind, runs_resolve, runs_pure] at h
    obtain ⟨_, _, ⟨hty, rfl⟩, rfl, rfl⟩ := h
    exact ⟨by constructor; exact hty, rfl⟩
  | cast target value | arrayLoad array index ty =>
    simp only [operation, runs_bind, runs_resolve, runs_pure] at h
    obtain ⟨_, _, ⟨hty, rfl⟩, _, _, ⟨hvalue, rfl⟩, rfl, rfl⟩ := h
    exact ⟨by constructor <;> assumption, rfl⟩
  | self | dup | nothing | not | arrayLength | arrayStore | raise | monitorEnter | monitorExit =>
    obtain ⟨rfl, rfl⟩ := runs_pure.mp h
    exact ⟨by constructor, rfl⟩
  | _ => cases htree

theorem runs_value_readLocal {env : Env} {s : State} {recur : Recur} {name : String}
    {ty : Ty} {slot : UInt16}
    (hrecur : recur (.readLocal name ty) = readLocal name ty) (hty : Resolves env s ty ty)
    (hslot : s.slots.require name ty = .ok slot) :
    Runs (recur.value (.readLocal name ty)) env s () (s.emits (.getLocal slot)) := by
  refine runs_inExpression.mpr ⟨s.enterExpression.emits (.getLocal slot), ?_, rfl⟩
  rw [hrecur, readLocal]
  simp only [runs_bind, runs_resolve, runs_require, runs_emit, runs_discard]
  exact ⟨_, _, ⟨hty, rfl⟩, _, _, ⟨hslot, rfl⟩, (), _, rfl, rfl⟩

/-- Use a bridge for an access where there is one, and else perform it. -/
def access (recur : Recur) (access : Tree) : Lower Unit := do
  match ← bridged access with
  | some use => recur use
  | none => perform recur (directAccess access)

theorem readField_eq (recur : Recur) (owner : Ty) (name : String) (ty : Ty)
    (receiver : Option Tree) : readField recur owner name ty receiver = (do
      let owner ← resolve owner
      let ty ← resolve ty
      access recur (.readField owner name ty receiver)) := by
  unfold readField access
  refine bind_congr fun owner => bind_congr fun ty => bind_congr fun use => ?_
  cases use with
  | some use => rfl
  | none => cases receiver <;> simp [perform, directAccess, Recur.values] <;> rfl

theorem invoke_eq (recur : Recur) (kind : InvokeKind) (owner : Ty) (method : Signature)
    (receiver : Option Tree) (args : List Tree) : invoke recur kind owner method receiver args = (do
      let owner ← resolve owner
      let method ← resolveSignature method
      checkInvocation kind owner method.name
      access recur (.invoke kind owner method receiver args)) := by
  unfold invoke access
  refine bind_congr fun owner => bind_congr fun method => bind_congr fun _ => bind_congr fun use => ?_
  cases use with
  | some use => rfl
  | none =>
    cases receiver with
    | some receiver =>
      cases kind <;>
        simp [perform, directAccess, Recur.values, pushReceiver, impliedReceiver] <;> rfl
    | none =>
      cases kind <;>
        simp [perform, directAccess, Recur.values, pushReceiver, impliedReceiver] <;> rfl

theorem create_eq (recur : Recur) (ty : Ty) (params : List Ty) (args : List Tree) :
    create recur ty params args = (do
      let ty ← resolve ty
      let params ← resolveAll params
      access recur (.create ty params args)) := by
  unfold create access
  refine bind_congr fun ty => bind_congr fun params => bind_congr fun use => ?_
  cases use with
  | some use => rfl
  | none =>
    simp [perform, directAccess, Recur.values]
    rfl

end Lowering

end StackLowering
