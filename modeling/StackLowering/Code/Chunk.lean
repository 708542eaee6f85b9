import StackLowering.Code.Opcode
/-!
The bytes of one routine. Writing appends; the only change to bytes already
written is patching a 32-bit operand. Numbers are stored big-endian.
-/

namespace StackLowering

namespace BigEndian

def bytes16 (value : UInt16) : List UInt8 :=
  [UInt8.ofNat (value.toNat / 256), UInt8.ofNat value.toNat]

def bytes32 (value : UInt32) : List UInt8 :=
  [UInt8.ofNat (value.toNat / 16777216), UInt8.ofNat (value.toNat / 65536),
   UInt8.ofNat (value.toNat / 256), UInt8.ofNat value.toNat]

def word16 (b0 b1 : UInt8) : UInt16 :=
  UInt16.ofNat (b0.toNat * 256 + b1.toNat)

def word32 (b0 b1 b2 b3 : UInt8) : UInt32 :=
  UInt32.ofNat (((b0.toNat * 256 + b1.toNat) * 256 + b2.toNat) * 256 + b3.toNat)

theorem bytes16_word16 (b0 b1 : UInt8) : bytes16 (word16 b0 b1) = [b0, b1] := by
  have h0 := b0.toNat_lt
  have h1 := b1.toNat_lt
  simp only [bytes16, word16, UInt16.toNat_ofNat', List.cons.injEq, and_true]
  constructor <;> apply UInt8.toNat_inj.mp <;> simp only [UInt8.toNat_ofNat'] <;> omega

theorem bytes32_word32 (b0 b1 b2 b3 : UInt8) :
    bytes32 (word32 b0 b1 b2 b3) = [b0, b1, b2, b3] := by
  have h0 := b0.toNat_lt
  have h1 := b1.toNat_lt
  have h2 := b2.toNat_lt
  have h3 := b3.toNat_lt
  simp only [bytes32, word32, UInt32.toNat_ofNat', List.cons.injEq, and_true]
  refine ⟨?_, ?_, ?_, ?_⟩ <;> apply UInt8.toNat_inj.mp <;>
    simp only [UInt8.toNat_ofNat'] <;> omega

theorem word16_bytes16 (value : UInt16) :
    word16 (UInt8.ofNat (value.toNat / 256)) (UInt8.ofNat value.toNat) = value := by
  have h := value.toNat_lt
  apply UInt16.toNat_inj.mp
  simp only [word16, UInt16.toNat_ofNat', UInt8.toNat_ofNat']
  omega

theorem word32_bytes32 (value : UInt32) :
    word32 (UInt8.ofNat (value.toNat / 16777216)) (UInt8.ofNat (value.toNat / 65536))
      (UInt8.ofNat (value.toNat / 256)) (UInt8.ofNat value.toNat) = value := by
  have h := value.toNat_lt
  apply UInt32.toNat_inj.mp
  simp only [word32, UInt32.toNat_ofNat', UInt8.toNat_ofNat']
  omega

end BigEndian

structure Chunk where
  bytes : Array UInt8
deriving DecidableEq

namespace Chunk

def empty : Chunk := ⟨#[]⟩

def size (chunk : Chunk) : Nat := chunk.bytes.size

def writeByte (chunk : Chunk) (byte : UInt8) : Chunk := ⟨chunk.bytes.push byte⟩

def writeBytes (chunk : Chunk) (bytes : List UInt8) : Chunk := bytes.foldl writeByte chunk

@[simp]
theorem toList_writeByte (chunk : Chunk) (byte : UInt8) :
    (chunk.writeByte byte).bytes.toList = chunk.bytes.toList ++ [byte] := by
  simp [writeByte]

@[simp]
theorem toList_writeBytes (chunk : Chunk) (bytes : List UInt8) :
    (chunk.writeBytes bytes).bytes.toList = chunk.bytes.toList ++ bytes := by
  induction bytes generalizing chunk with
  | nil => simp [writeBytes]
  | cons byte rest ih =>
    have h := ih (chunk.writeByte byte)
    simp only [writeBytes, List.foldl_cons] at h ⊢
    simp [h]

def writeOp (chunk : Chunk) (op : Opcode) : Chunk := chunk.writeByte op.toByte

def writeU16 (chunk : Chunk) (value : UInt16) : Chunk :=
  chunk.writeBytes (BigEndian.bytes16 value)

def writeI16 (chunk : Chunk) (value : Int16) : Chunk := chunk.writeU16 value.toUInt16

def writeI32 (chunk : Chunk) (value : Int32) : Chunk :=
  chunk.writeBytes (BigEndian.bytes32 value.toUInt32)

/-- Overwrite the bytes from `offset` on; what would lie past the end is dropped. -/
def overwrite (chunk : Chunk) (offset : Nat) : List UInt8 → Chunk
  | [] => chunk
  | byte :: rest => (Chunk.mk (chunk.bytes.setIfInBounds offset byte)).overwrite (offset + 1) rest

def patchI32 (chunk : Chunk) (offset : Nat) (value : Int32) : Chunk :=
  chunk.overwrite offset (BigEndian.bytes32 value.toUInt32)

/-- Patch an operand that lies inside the chunk. -/
def patchI32? (chunk : Chunk) (offset : Nat) (value : Int32) : Option Chunk :=
  if offset + 4 ≤ chunk.size then some (chunk.patchI32 offset value) else none

def byte? (chunk : Chunk) (offset : Nat) : Option UInt8 := chunk.bytes[offset]?

def u16? (chunk : Chunk) (offset : Nat) : Option UInt16 := do
  let b0 ← chunk.byte? offset
  let b1 ← chunk.byte? (offset + 1)
  return BigEndian.word16 b0 b1

def i16? (chunk : Chunk) (offset : Nat) : Option Int16 := (chunk.u16? offset).map UInt16.toInt16

def i32? (chunk : Chunk) (offset : Nat) : Option Int32 := do
  let b0 ← chunk.byte? offset
  let b1 ← chunk.byte? (offset + 1)
  let b2 ← chunk.byte? (offset + 2)
  let b3 ← chunk.byte? (offset + 3)
  return (BigEndian.word32 b0 b1 b2 b3).toInt32

def op? (chunk : Chunk) (offset : Nat) : Option Opcode :=
  (chunk.byte? offset).bind Opcode.ofByte?

end Chunk

end StackLowering
