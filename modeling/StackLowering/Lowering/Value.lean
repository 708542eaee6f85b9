import StackLowering.Lowering.Handler
/-!
Literals and local variables.
-/

namespace StackLowering.Lowering

open Lower

/-- Push a constant. Integers narrower than `long` are pushed as ints. -/
def pushLiteral : Literal → Lower Unit
  | .null => emit Assembler.null
  | .bool value => emit (.bool value)
  | .byte value => emit (.int value.toInt32)
  | .char value => emit (.int (Int32.ofNat value.toNat))
  | .short value => emit (.int value.toInt32)
  | .int value => emit (.int value)
  | .long value => emit (.long value)
  | .float bits => emit (.float bits)
  | .double bits => emit (.double bits)
  | .text value => emit (.text value)
  | .classOf ty => do
    let ty ← resolve ty
    emit (.typeConstant ty.digest)

def literal (value : Literal) : Lower Unit := do
  pushLiteral value
  discard value.valueType

def self : Lower Unit := do
  emit Assembler.getThis
  discard Ty.root

def dup (ty : Ty) : Lower Unit := do
  emit (.dup ty.width)
  discard ty

def readLocal (name : String) (ty : Ty) : Lower Unit := do
  let resolved ← resolve ty
  let slot ← require name resolved (.readLocal name ty)
  emit (.getLocal slot)
  discard resolved

/-- Declare a variable. Its first value is lowered before the name is bound, so
it still sees a variable that the declaration hides. -/
def declareLocal (recur : Recur) (name : String) (ty : Ty) (value : Option Tree) : Lower Unit := do
  let ty ← resolve ty
  match value with
  | some value =>
    recur.value value
    let slot ← declare name ty
    emit (.setLocal slot)
  | none =>
    let _ ← declare name ty

/-- The tree reads the int variable `name`. -/
def readsInt (name : String) : Tree → Bool
  | .readLocal other ty => other == name && ty == Ty.int
  | _ => false

/-- The int that `value` adds to the variable `name`, if it is a sum of the
variable and a constant, or the variable less a constant. -/
def addedConstant? (name : String) (value : Tree) : Option Int :=
  match value with
  | .arith op (.prim .int) left right =>
    let operand? :=
      if readsInt name left then some right
      else if op.isCommutative && readsInt name right then some left
      else none
    match op, operand? with
    | .add, some (.literal (.int c)) => some c.toInt
    | .sub, some (.literal (.int c)) => some (- c.toInt)
    | _, _ => none
  | _ => none

/-- The increment that an assignment to an int variable amounts to, if it fits
16 bits. -/
def fusedDelta? (name : String) (ty : Ty) (value : Tree) : Option Int16 :=
  if ty = Ty.int then
    (addedConstant? name value).bind fun delta =>
      if -32768 ≤ delta ∧ delta ≤ 32767 then some (Int16.ofInt delta) else none
  else none

def assignLocal (recur : Recur) (name : String) (ty : Ty) (value : Tree) : Lower Unit := do
  let resolved ← resolve ty
  let slot ← require name resolved (.assignLocal name ty value)
  let fused := if (← options).fuseUpdates then fusedDelta? name resolved value else none
  match fused with
  | some delta => emit (.incLocal slot delta)
  | none =>
    recur.value value
    emit (.setLocal slot)

end StackLowering.Lowering
