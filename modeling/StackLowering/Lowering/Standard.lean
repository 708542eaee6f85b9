import StackLowering.Lowering.Branch
import StackLowering.Lowering.Guard
import StackLowering.Lowering.Loop
import StackLowering.Lowering.Member
import StackLowering.Lowering.Operator
import StackLowering.Lowering.Routine
import StackLowering.Lowering.Switch
import StackLowering.Lowering.Value
/-!
The standard handlers, one for every kind of tree.
-/

namespace StackLowering

/-- Lower a tree in the standard way. -/
def Lowering.tree (recur : Recur) : Tree → Lower Unit
  | .literal value => literal value
  | .self => self
  | .dup ty => dup ty
  | .nothing => pure ()
  | .block trees => trees.forM recur
  | .readLocal name ty => readLocal name ty
  | .declareLocal name ty value => declareLocal recur name ty value
  | .assignLocal name ty value => assignLocal recur name ty value
  | .readField owner name ty receiver => readField recur owner name ty receiver
  | .writeField owner name _ receiver value => writeField recur owner name receiver value
  | .invoke kind owner method receiver args => invoke recur kind owner method receiver args
  | .create ty params args => create recur ty params args
  | .enumConstant ty name => enumConstant ty name
  | .arith op ty left right => arith recur op ty left right
  | .compare op left right => compare recur op left right
  | .logical op left right => logical recur op left right
  | .not operand => not recur operand
  | .cast target value => cast recur target value
  | .instanceOf ty value => instanceOf recur ty value
  | .arrayLength array => arrayLength recur array
  | .arrayLoad array index ty => arrayLoad recur array index ty
  | .arrayStore array index value => arrayStore recur array index value
  | .newArray element length => newArray recur element length
  | .branch condition body otherwise => branch recur condition body otherwise
  | .forLoop label init condition update body => forLoop recur label init condition update body
  | .whileLoop label condition body bodyFirst => whileLoop recur label condition body bodyFirst
  | .forEach label binder ty iteration source body =>
    forEach recur label binder ty iteration source body
  | .switch label kind subject arms => switch recur label kind subject arms
  | .synchronized lock body => synchronized recur lock body
  | .guarded body catches cleanup => guarded recur body catches cleanup
  | .raise value => raise recur value
  | .ret value => ret recur value
  | .breakTo label => breakTo recur label
  | .continueTo label => continueTo recur label
  | .monitorEnter value => monitorEnter recur value
  | .monitorExit value => monitorExit recur value
  | .redirect => redirect recur
  | .localRoutine decl => localRoutine recur decl

/-- The standard handler for a kind. It refuses trees of other kinds. -/
def Handler.standard (kind : Tree.Kind) : Handler := fun recur tree =>
  if tree.kind = kind then Lowering.tree recur tree
  else throw (.mismatchedTree kind tree.kind)

/-- The standard handlers. -/
def Handlers.standard : Handlers := ⟨fun kind => some (.standard kind)⟩

end StackLowering
