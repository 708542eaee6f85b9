import StackLowering.Literal
/-!
Hash codes of literals, as the running program computes them for the boxed
value.
-/

namespace StackLowering

/-- UTF-16 code units of a character; a pair of surrogates above the basic plane. -/
def utf16Units (c : Char) : List UInt16 :=
  if c.toNat < 0x10000 then [UInt16.ofNat c.toNat]
  else [UInt16.ofNat (0xd800 + (c.toNat - 0x10000) / 0x400),
    UInt16.ofNat (0xdc00 + (c.toNat - 0x10000) % 0x400)]

/-- Polynomial in 31 over the UTF-16 code units, in wrapping 32-bit arithmetic. -/
def textHash (text : String) : Int32 :=
  (text.toList.flatMap utf16Units).foldl
    (fun hash unit => hash * 31 + Int32.ofNat unit.toNat) 0

/-- Upper half folded onto the lower half. -/
def foldedHash (bits : UInt64) : Int32 := (bits ^^^ (bits >>> 32)).toUInt32.toInt32

/-- Hash code of a literal. Null and class literals have none at compile time. -/
def Literal.hash? : Literal → Option Int32
  | text value => some (textHash value)
  | int value => some value
  | short value => some value.toInt32
  | byte value => some value.toInt32
  | char value => some (Int32.ofNat value.toNat)
  | long value => some (foldedHash value.toUInt64)
  | bool value => some (if value then 1231 else 1237)
  | float bits => some bits.toInt32
  | double bits => some (foldedHash bits)
  | null | classOf _ => none

end StackLowering
