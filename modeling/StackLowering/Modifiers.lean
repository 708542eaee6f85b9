/-!
Access and property flags of types and members. Carrying none of the access
flags means visible within the package.
-/

namespace StackLowering

structure Modifiers where
  bits : UInt16
deriving DecidableEq, Repr

namespace Modifiers

def empty : Modifiers := ⟨0⟩
def publicFlag : Modifiers := ⟨0x0001⟩
def privateFlag : Modifiers := ⟨0x0002⟩
def protectedFlag : Modifiers := ⟨0x0004⟩
def staticFlag : Modifiers := ⟨0x0008⟩
def finalFlag : Modifiers := ⟨0x0010⟩
def abstractFlag : Modifiers := ⟨0x0400⟩
def syntheticFlag : Modifiers := ⟨0x1000⟩

def union (a b : Modifiers) : Modifiers := ⟨a.bits ||| b.bits⟩

instance : OrOp Modifiers := ⟨union⟩

/-- Every flag that has a meaning. -/
def known : Modifiers :=
  publicFlag ||| privateFlag ||| protectedFlag ||| staticFlag ||| finalFlag ||| abstractFlag |||
    syntheticFlag

/-- The flags among `bits`; bits without a meaning are dropped. -/
def ofBits (bits : UInt16) : Modifiers := ⟨bits &&& known.bits⟩

def contains (a flag : Modifiers) : Bool := a.bits &&& flag.bits == flag.bits

def isPrivate (a : Modifiers) : Bool := a.contains privateFlag

def isStatic (a : Modifiers) : Bool := a.contains staticFlag

end Modifiers

end StackLowering
