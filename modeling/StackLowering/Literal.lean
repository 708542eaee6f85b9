import StackLowering.Ty
/-!
Compile-time constants. Floating-point constants are kept as bit patterns;
they count as the same value when the numbers agree, so both zeros are one
value and so are all NaNs.
-/

namespace StackLowering

namespace FloatBits

/-- One pattern for each number: zero for both zeros and a single NaN. -/
def canonical32 (bits : UInt32) : UInt32 :=
  let magnitude := bits &&& 0x7fffffff
  if magnitude > 0x7f800000 then 0x7fc00000 else if magnitude = 0 then 0 else bits

/-- One pattern for each number: zero for both zeros and a single NaN. -/
def canonical64 (bits : UInt64) : UInt64 :=
  let magnitude := bits &&& 0x7fffffffffffffff
  if magnitude > 0x7ff0000000000000 then 0x7ff8000000000000
  else if magnitude = 0 then 0 else bits

end FloatBits

inductive Literal where
  | null
  | bool (value : Bool)
  | byte (value : Int8)
  /-- A UTF-16 code unit. -/
  | char (value : UInt16)
  | short (value : Int16)
  | int (value : Int32)
  | long (value : Int64)
  | float (bits : UInt32)
  | double (bits : UInt64)
  | text (value : String)
  | classOf (ty : Ty)
deriving DecidableEq, Repr

namespace Literal

def valueType : Literal → Ty
  | null => Ty.root
  | bool _ => Ty.bool
  | byte _ => Ty.byte
  | char _ => Ty.char
  | short _ => Ty.short
  | int _ => Ty.int
  | long _ => Ty.long
  | float _ => Ty.float
  | double _ => Ty.double
  | text _ => Ty.text
  | classOf _ => Ty.classObject

/-- The representative of a literal among those with the same value. -/
def canonical : Literal → Literal
  | float bits => float (FloatBits.canonical32 bits)
  | double bits => double (FloatBits.canonical64 bits)
  | literal => literal

def sameValue (a b : Literal) : Bool :=
  a.canonical == b.canonical

end Literal

end StackLowering
