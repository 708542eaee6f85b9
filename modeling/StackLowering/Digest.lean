import StackLowering.Hex
import StackLowering.Digest.XxHash64
/-!
Digests identify types and members in instruction operands. A digest depends
on names only, so a member keeps its digest whatever order things are declared
in. Each kind of member mixes in a marker of its own, and every parameter is
mixed with a marker for its position.
-/

namespace StackLowering

structure Digest where
  bits : UInt64
deriving DecidableEq, Repr

namespace Digest

def separator : UInt64 := 0x4bc94d6bd06053ad
def typeMarker : UInt64 := 0x2fac10b63a6cc57c
def fieldMarker : UInt64 := 0x1a095090689d4647
def methodMarker : UInt64 := 0x7d3c8b4a92e15f6d
def constructorMarker : UInt64 := 0x9a7f3d5e2b8c4601

/-- Markers of the first sixteen parameter positions. -/
def positionMarkers : List UInt64 :=
  [0x9e3779b97f4a7c15, 0xbf58476d1ce4e5b9, 0x94d049bb133111eb, 0xd6e8feb86659fd93,
   0xe7037ed1a0b428db, 0xc6a4a7935bd1e995, 0x8648dbbc94d49b8d, 0xa2b48b2c69e0d657,
   0x7c3e9f2a5b8d1403, 0x5d8c7b4a3e9f2106, 0x3f1e9d8c7b5a4203, 0x1a2b3c4d5e6f7089,
   0x9f8e7d6c5b4a3210, 0x2468ace013579bdf, 0xfdb97531eca86420, 0x0f1e2d3c4b5a6978]

/-- Positions past the table count on from its first marker. -/
def positionMarker (i : Nat) : UInt64 :=
  (positionMarkers[i]?).getD (0x9e3779b97f4a7c15 + UInt64.ofNat i)

/-- Mix in the parameters, the first of which stands at `position`. -/
def mixParams (acc : UInt64) (position : Nat) : List Digest → UInt64
  | [] => acc
  | param :: rest =>
    mixParams (acc * separator + (positionMarker position ^^^ param.bits)) (position + 1) rest

def ofName (name : String) : Digest :=
  ⟨typeMarker ^^^ XxHash64.hashText name⟩

def ofField (owner : Digest) (name : String) : Digest :=
  ⟨fieldMarker ^^^ XxHash64.rotateLeft owner.bits 17 ^^^ XxHash64.hashText name⟩

def ofMethod (owner : Digest) (name : String) (params : List Digest) : Digest :=
  ⟨mixParams (methodMarker ^^^ XxHash64.rotateLeft owner.bits 17 ^^^ XxHash64.hashText name)
    0 params⟩

/-- Constructors have no name of their own: owner and parameters identify them. -/
def ofConstructor (owner : Digest) (params : List Digest) : Digest :=
  ⟨mixParams (constructorMarker ^^^ owner.bits) 0 params⟩

def isEmpty (digest : Digest) : Bool :=
  digest.bits == 0

def display (digest : Digest) : String :=
  "0x" ++ Hex.text 16 digest.bits.toNat

end Digest

end StackLowering
