import StackLowering.Code.Instruction
import StackLowering.Code.Pool
import StackLowering.Fault
import StackLowering.Sorting
/-!
Assembling the code of one routine. Jumps are written before their targets are
known: each operand is remembered with its label and filled in when the code is
finished. An operand that does not fit is remembered too, and the first such
operand is reported at the end.
-/

namespace StackLowering

structure Label where
  id : Nat
deriving DecidableEq, Repr

/-- A 32-bit jump operand that waits for the position of its label. -/
structure Fixup where
  label : Label
  /-- Where the operand is. -/
  site : Nat
  /-- Where the instruction is that the jump is relative to. -/
  origin : Nat

/-- A range of code, by labels, and the handler of exceptions raised in it. -/
structure Region where
  start : Label
  stop : Label
  handler : Label
  /-- Type of the exceptions caught, or any exception. -/
  catches : Option Digest

/-- A resolved region: exceptions raised in `[start, stop)` go to `handler`. -/
structure ExceptionEntry where
  start : Nat
  stop : Nat
  handler : Nat
  catches : Option Digest
deriving DecidableEq

/-- A bracket `[start, stop)` of code inside `depth` others. -/
structure Frame where
  start : Nat
  stop : Nat
  depth : Nat
deriving DecidableEq

/-- Outer brackets come before the ones inside them. -/
def Frame.precedes (a b : Frame) : Bool :=
  a.start < b.start || (a.start == b.start && a.depth ≤ b.depth)

/-- Finished code. -/
structure Code where
  chunk : Chunk
  exceptions : List ExceptionEntry
  frames : List Frame

structure Assembler where
  chunk : Chunk
  pool : Pool
  /-- Position of each label allocated so far, once it is bound. -/
  positions : Array (Option Nat)
  fixups : Array Fixup
  regions : Array Region
  /-- Starts of the open brackets, innermost first. -/
  openFrames : List Nat
  frames : Array Frame
  /-- The first operand that did not fit. -/
  overflow : Option (OperandKind × Nat)
  /-- The first label that was bound again although it had a position. -/
  rebound : Option Label

namespace Assembler

def new (pool : Pool) : Assembler where
  chunk := .empty
  pool := pool
  positions := #[]
  fixups := #[]
  regions := #[]
  openFrames := []
  frames := #[]
  overflow := none
  rebound := none

def offset (asm : Assembler) : Nat := asm.chunk.size

def onChunk (f : Chunk → Chunk) (asm : Assembler) : Assembler := { asm with chunk := f asm.chunk }

def noteOverflow (operand : OperandKind) (value : Nat) (asm : Assembler) : Assembler :=
  { asm with overflow := asm.overflow.or (some (operand, value)) }

def op (op : Opcode) : Assembler → Assembler := onChunk (·.writeOp op)

def opByte (op : Opcode) (byte : UInt8) : Assembler → Assembler :=
  onChunk fun chunk => (chunk.writeOp op).writeByte byte

def opU16 (op : Opcode) (value : UInt16) : Assembler → Assembler :=
  onChunk fun chunk => (chunk.writeOp op).writeU16 value

/-- Pool index of a constant as a 16-bit operand. -/
def constantIndex (constant : Constant) (asm : Assembler) : UInt16 × Assembler :=
  let (index, pool) := asm.pool.add constant
  let asm := { asm with pool := pool }
  if index < 65536 then (UInt16.ofNat index, asm)
  else (0, asm.noteOverflow .constantIndex index)

def digestIndex (digest : Digest) : Assembler → UInt16 × Assembler :=
  constantIndex (.digest digest)

/-- An argument count as an 8-bit operand. -/
def argCount (count : Nat) (asm : Assembler) : UInt8 × Assembler :=
  if count < 256 then (UInt8.ofNat count, asm)
  else (255, asm.noteOverflow .argumentCount count)

/-- Push a constant, with the short form for the first 256 of the pool. -/
def constant (constant : Constant) (asm : Assembler) : Assembler :=
  let (index, asm) := asm.constantIndex constant
  if index < 256 then asm.opByte .constant index.toUInt8 else asm.opU16 .constantWide index

/-- Push an int. Zero and one have instructions of their own. -/
def int (value : Int32) : Assembler → Assembler :=
  if value = 0 then op .pushZero else if value = 1 then op .pushOne else constant (.int value)

def long (value : Int64) : Assembler → Assembler := constant (.long value)

def float (bits : UInt32) : Assembler → Assembler := constant (.float bits)

def double (bits : UInt64) : Assembler → Assembler := constant (.double bits)

def text (value : String) : Assembler → Assembler := constant (.bytes value.toUTF8.data.toList)

def typeConstant (digest : Digest) : Assembler → Assembler := constant (.digest digest)

def null : Assembler → Assembler := op .pushNull

def bool (value : Bool) : Assembler → Assembler := op (if value then .pushTrue else .pushFalse)

def getLocal (slot : UInt16) : Assembler → Assembler :=
  if slot < 256 then opByte .getLocal slot.toUInt8 else opU16 .getLocalWide slot

def setLocal (slot : UInt16) : Assembler → Assembler :=
  if slot < 256 then opByte .setLocal slot.toUInt8 else opU16 .setLocalWide slot

/-- Add `delta` to an int local without touching the stack. -/
def incLocal (slot : UInt16) (delta : Int16) : Assembler → Assembler :=
  onChunk fun chunk => ((chunk.writeOp .incLocal).writeU16 slot).writeI16 delta

/-- An instruction whose operand is the pool index of a digest. -/
def opDigest (op : Opcode) (digest : Digest) (asm : Assembler) : Assembler :=
  let (index, asm) := asm.digestIndex digest
  asm.opU16 op index

def getField : Digest → Assembler → Assembler := opDigest .getField
def setField : Digest → Assembler → Assembler := opDigest .setField
def getStatic : Digest → Assembler → Assembler := opDigest .getStatic
def setStatic : Digest → Assembler → Assembler := opDigest .setStatic
def newArray : Digest → Assembler → Assembler := opDigest .newArray
def cast : Digest → Assembler → Assembler := opDigest .cast
def instanceOf : Digest → Assembler → Assembler := opDigest .instanceOf

def getThis : Assembler → Assembler := op .getThis

/-- Call a method. The receiver is not counted among the arguments. -/
def invoke (kind : InvokeKind) (method : Digest) (args : Nat) (asm : Assembler) : Assembler :=
  let (index, asm) := asm.digestIndex method
  let (count, asm) := asm.argCount args
  (asm.opU16 (.ofInvoke kind) index).onChunk (·.writeByte count)

/-- Return from a routine with result `ty`. -/
def ret (ty : Ty) : Assembler → Assembler :=
  op (if ty.isVoid then .returnVoid else .returnValue)

/-- Create an object and run a constructor on it. -/
def create (ty constructor : Digest) (args : Nat) (asm : Assembler) : Assembler :=
  let (typeIndex, asm) := asm.digestIndex ty
  let (constructorIndex, asm) := asm.digestIndex constructor
  let (count, asm) := asm.argCount args
  (asm.opU16 .create typeIndex).onChunk fun chunk =>
    (chunk.writeU16 constructorIndex).writeByte count

/-- Discard a value of the given width. -/
def pop (width : Nat) (asm : Assembler) : Assembler :=
  match width with
  | 0 => asm
  | 1 => asm.op .pop
  | _ => asm.op .pop2

/-- Duplicate a value of the given width. -/
def dup (width : Nat) (asm : Assembler) : Assembler :=
  match width with
  | 0 => asm
  | 1 => asm.op .dup
  | _ => asm.op .dup2

def newLabel (asm : Assembler) : Label × Assembler :=
  (⟨asm.positions.size⟩, { asm with positions := asm.positions.push none })

def position? (asm : Assembler) (label : Label) : Option Nat :=
  (asm.positions[label.id]?).join

/-- Bind a label to the current offset. A label is meant to be bound once only. -/
def bind (label : Label) (asm : Assembler) : Assembler :=
  { asm with
    positions := asm.positions.setIfInBounds label.id (some asm.offset)
    rebound := asm.rebound.or ((asm.position? label).map fun _ => label) }

/-- Write the operand of a jump to `label`, relative to `origin`. -/
def target (label : Label) (origin : Nat) (asm : Assembler) : Assembler :=
  { asm with
    fixups := asm.fixups.push ⟨label, asm.offset, origin⟩
    chunk := asm.chunk.writeI32 0 }

def jump (op : Opcode) (label : Label) (asm : Assembler) : Assembler :=
  (asm.op op).target label asm.offset

/-- Dispatch over the keys from `low` to `high`, one label for each. -/
def tableSwitch (low high : Int32) (otherwise : Label) (targets : List Label)
    (asm : Assembler) : Assembler :=
  let origin := asm.offset
  let asm := (asm.op .tableSwitch).target otherwise origin
  let asm := asm.onChunk fun chunk => (chunk.writeI32 low).writeI32 high
  targets.foldl (fun asm label => asm.target label origin) asm

/-- Dispatch over keys in ascending order, each with its label. -/
def lookupSwitch (otherwise : Label) (pairs : List (Int32 × Label))
    (asm : Assembler) : Assembler :=
  let origin := asm.offset
  let asm := (asm.op .lookupSwitch).target otherwise origin
  let asm := asm.onChunk (·.writeI32 (Int32.ofNat pairs.length))
  pairs.foldl (fun asm pair => (asm.onChunk (·.writeI32 pair.1)).target pair.2 origin) asm

def enterFrame (asm : Assembler) : Assembler :=
  { asm with openFrames := asm.offset :: asm.openFrames }

/-- Close the innermost open bracket, if there is one. -/
def exitFrame (asm : Assembler) : Assembler :=
  match asm.openFrames with
  | [] => asm
  | start :: rest =>
    { asm with
      openFrames := rest
      frames := asm.frames.push ⟨start, asm.offset, rest.length⟩ }

def frameDepth (asm : Assembler) : Nat := asm.openFrames.length

def region (start stop handler : Label) (catches : Option Digest) (asm : Assembler) : Assembler :=
  { asm with regions := asm.regions.push ⟨start, stop, handler, catches⟩ }

def requirePosition (asm : Assembler) (label : Label) : Except Fault Nat :=
  match asm.position? label with
  | some position => .ok position
  | none => .error (.unboundLabel label.id)

/-- Fill in one jump operand. -/
def applyFixup (asm : Assembler) (chunk : Chunk) (fixup : Fixup) : Except Fault Chunk := do
  let target ← asm.requirePosition fixup.label
  let relative : Int := target - fixup.origin
  if -2147483648 ≤ relative ∧ relative ≤ 2147483647 then
    return chunk.patchI32 fixup.site (Int32.ofInt relative)
  else throw (.operandOverflow .jumpOffset relative.natAbs)

/-- Resolve a region. Regions without code are left out. -/
def resolveRegion (asm : Assembler) (region : Region) : Except Fault (Option ExceptionEntry) := do
  let start ← asm.requirePosition region.start
  let stop ← asm.requirePosition region.stop
  let handler ← asm.requirePosition region.handler
  return if start < stop then some ⟨start, stop, handler, region.catches⟩ else none

def finish (asm : Assembler) : Except Fault Code := do
  if let some (operand, value) := asm.overflow then
    throw (.operandOverflow operand value)
  let chunk ← asm.fixups.toList.foldlM asm.applyFixup asm.chunk
  let exceptions ← asm.regions.toList.mapM asm.resolveRegion
  return ⟨chunk, exceptions.filterMap id, sortBy Frame.precedes asm.frames.toList⟩

end Assembler

end StackLowering
