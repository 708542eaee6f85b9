import StackLowering.Lowering.Handler
/-!
Operators, conversions and arrays. The instruction of an operator depends on
how the machine represents its operands.
-/

namespace StackLowering

/-- How the machine represents a value. -/
inductive Category where
  | i32
  | i64
  | f32
  | f64
  | reference
deriving DecidableEq, Repr

def Ty.category : Ty → Category
  | prim .long => .i64
  | prim .float => .f32
  | prim .double => .f64
  | prim _ => .i32
  | _ => .reference

/-- The instruction of an operator. Bits are only combined and shifted in
integers, and references have no arithmetic. -/
def ArithOp.opcode? : ArithOp → Category → Option Opcode
  | add, .i32 => some .addI32
  | sub, .i32 => some .subI32
  | mul, .i32 => some .mulI32
  | div, .i32 => some .divI32
  | rem, .i32 => some .modI32
  | and, .i32 => some .andI32
  | or, .i32 => some .orI32
  | xor, .i32 => some .xorI32
  | shl, .i32 => some .shlI32
  | shr, .i32 => some .shrI32
  | ushr, .i32 => some .ushrI32
  | add, .i64 => some .addI64
  | sub, .i64 => some .subI64
  | mul, .i64 => some .mulI64
  | div, .i64 => some .divI64
  | rem, .i64 => some .modI64
  | and, .i64 => some .andI64
  | or, .i64 => some .orI64
  | xor, .i64 => some .xorI64
  | shl, .i64 => some .shlI64
  | shr, .i64 => some .shrI64
  | ushr, .i64 => some .ushrI64
  | add, .f32 => some .addF32
  | sub, .f32 => some .subF32
  | mul, .f32 => some .mulF32
  | div, .f32 => some .divF32
  | rem, .f32 => some .modF32
  | add, .f64 => some .addF64
  | sub, .f64 => some .subF64
  | mul, .f64 => some .mulF64
  | div, .f64 => some .divF64
  | rem, .f64 => some .modF64
  | _, _ => none

/-- The instruction of a comparison; for `ne` that of `eq`. References are only
compared for identity. -/
def CompareOp.opcode? : CompareOp → Category → Option Opcode
  | eq, .i32 | ne, .i32 => some .eqI32
  | eq, .i64 | ne, .i64 => some .eqI64
  | eq, .f32 | ne, .f32 => some .eqF32
  | eq, .f64 | ne, .f64 => some .eqF64
  | eq, .reference | ne, .reference => some .eqRef
  | lt, .i32 => some .ltI32
  | lt, .i64 => some .ltI64
  | lt, .f32 => some .ltF32
  | lt, .f64 => some .ltF64
  | le, .i32 => some .leI32
  | le, .i64 => some .leI64
  | le, .f32 => some .leF32
  | le, .f64 => some .leF64
  | gt, .i32 => some .gtI32
  | gt, .i64 => some .gtI64
  | gt, .f32 => some .gtF32
  | gt, .f64 => some .gtF64
  | ge, .i32 => some .geI32
  | ge, .i64 => some .geI64
  | ge, .f32 => some .geF32
  | ge, .f64 => some .geF64
  | _, .reference => none

/-- The instruction that changes the representation of a number. -/
def Category.convert? : Category → Category → Option Opcode
  | i32, i64 => some .i32ToI64
  | i32, f32 => some .i32ToF32
  | i32, f64 => some .i32ToF64
  | i64, i32 => some .i64ToI32
  | i64, f32 => some .i64ToF32
  | i64, f64 => some .i64ToF64
  | f32, i32 => some .f32ToI32
  | f32, i64 => some .f32ToI64
  | f32, f64 => some .f32ToF64
  | f64, i32 => some .f64ToI32
  | f64, i64 => some .f64ToI64
  | f64, f32 => some .f64ToF32
  | _, _ => none

/-- The instruction that cuts a 32-bit integer down to a narrower type. Every
byte is a short already. -/
def Prim.narrow? : Prim → Prim → Option Opcode
  | byte, short => none
  | _, byte => some .i32ToI8
  | _, short => some .i32ToI16
  | _, char => some .i32ToU16
  | _, _ => none

/-- Instructions that convert a number. Booleans are not converted. -/
def Prim.conversion (source target : Prim) : List Opcode :=
  if source = .bool ∨ target = .bool ∨ source = .void then []
  else
    (Category.convert? (Ty.prim source).category (Ty.prim target).category).toList ++
      (narrow? source target).toList

namespace Lowering

open Lower

/-- Convert the value on the stack. A conversion that involves a reference is a
checked cast, and none is needed to widen to the root type. -/
def convert (source target : Ty) : Lower Unit :=
  if source = target ∨ target.isVoid then pure ()
  else match source, target with
    | .prim source, .prim target => (source.conversion target).forM op
    | _, _ => if target = Ty.root then pure () else emit (.cast target.digest)

def arith (recur : Recur) (operator : ArithOp) (ty : Ty) (left right : Tree) : Lower Unit := do
  let ty ← resolve ty
  match operator.opcode? ty.category with
  | none => throw (.invalidOperand operator.name ty)
  | some opcode =>
    recur.value left
    recur.value right
    op opcode
    discard ty

/-- The type a comparison is made in. A null takes the type of the other side. -/
def comparedType (left right : Tree) : Ty :=
  match left with
  | .literal .null => right.valueType
  | _ => left.valueType

def compare (recur : Recur) (operator : CompareOp) (left right : Tree) : Lower Unit := do
  let ty ← resolve (comparedType left right)
  match operator.opcode? ty.category with
  | none => throw (.invalidOperand operator.name ty)
  | some opcode =>
    recur.value left
    recur.value right
    op opcode
    if operator = .ne then
      op .not
    discard Ty.bool

def not (recur : Recur) (operand : Tree) : Lower Unit := do
  recur.value operand
  op .not
  discard Ty.bool

def cast (recur : Recur) (target : Ty) (value : Tree) : Lower Unit := do
  let target ← resolve target
  let source ← resolve value.valueType
  recur.value value
  convert source target
  discard target

def instanceOf (recur : Recur) (ty : Ty) (value : Tree) : Lower Unit := do
  let ty ← resolve ty
  recur.value value
  emit (.instanceOf ty.digest)
  discard Ty.bool

def arrayLength (recur : Recur) (array : Tree) : Lower Unit := do
  recur.value array
  op .arrayLength
  discard Ty.int

/-- Load an element and convert it to the type it is consumed as. -/
def arrayLoad (recur : Recur) (array index : Tree) (ty : Ty) : Lower Unit := do
  let ty ← resolve ty
  let arrayTy ← resolve array.valueType
  recur.value array
  recur.value index
  op .arrayLoad
  convert (arrayTy.element?.getD ty) ty
  discard ty

def arrayStore (recur : Recur) (array index value : Tree) : Lower Unit := do
  recur.value array
  recur.value index
  recur.value value
  op .arrayStore

def newArray (recur : Recur) (element : Ty) (length : Tree) : Lower Unit := do
  let element ← resolve element
  recur.value length
  emit (.newArray element.digest)
  discard (.array element)

end Lowering

end StackLowering
