import StackLowering.Code.Chunk
/-!
Instructions read back from bytes. Jumps are stored relative to the opcode and
read as absolute offsets. Reading a whole chunk stops at the first offset that
holds no complete instruction.
-/

namespace StackLowering

/-- Operands over a type of jump targets. -/
inductive OperandOf (T : Type) where
  | none
  | byte (value : UInt8)
  | short (value : UInt16)
  | increment (slot : UInt16) (delta : Int16)
  | invoke (constant : UInt16) (argCount : UInt8)
  | create (ty constructor : UInt16) (argCount : UInt8)
  | jump (target : T)
  | table (otherwise : T) (low high : Int32) (targets : List T)
  | lookup (otherwise : T) (pairs : List (Int32 × T))
deriving DecidableEq

structure InstructionOf (T : Type) where
  offset : Nat
  op : Opcode
  operand : OperandOf T
deriving DecidableEq

abbrev Operand := OperandOf Nat
abbrev Instruction := InstructionOf Nat

namespace Chunk

/-- The target stored at `position`, relative to `origin`. Targets before the
start of the code do not exist. -/
def target? (chunk : Chunk) (origin position : Nat) : Option Nat := do
  let relative ← chunk.i32? position
  let target := (origin : Int) + relative.toInt
  if target < 0 then none else some target.toNat

/-- `count` consecutive targets. -/
def targets? (chunk : Chunk) (origin start count : Nat) : Option (List Nat) :=
  if start + 4 * count ≤ chunk.size then
    (List.range count).mapM fun i => chunk.target? origin (start + 4 * i)
  else none

/-- `count` consecutive pairs of a key and a target. -/
def pairs? (chunk : Chunk) (origin start count : Nat) : Option (List (Int32 × Nat)) :=
  if start + 8 * count ≤ chunk.size then
    (List.range count).mapM fun i => do
      let key ← chunk.i32? (start + 8 * i)
      let target ← chunk.target? origin (start + 8 * i + 4)
      return (key, target)
  else none

def tableOperand? (chunk : Chunk) (offset : Nat) : Option (Operand × Nat) := do
  let otherwise ← chunk.target? offset (offset + 1)
  let low ← chunk.i32? (offset + 5)
  let high ← chunk.i32? (offset + 9)
  let count := high.toInt - low.toInt + 1
  if count < 0 then none
  else
    let targets ← chunk.targets? offset (offset + 13) count.toNat
    return (.table otherwise low high targets, offset + 13 + 4 * count.toNat)

def lookupOperand? (chunk : Chunk) (offset : Nat) : Option (Operand × Nat) := do
  let otherwise ← chunk.target? offset (offset + 1)
  let count ← chunk.i32? (offset + 5)
  if count.toInt < 0 then none
  else
    let pairs ← chunk.pairs? offset (offset + 9) count.toInt.toNat
    return (.lookup otherwise pairs, offset + 9 + 8 * count.toInt.toNat)

/-- The operand of `op` at `offset`, with the offset after it. -/
def operand? (chunk : Chunk) (offset : Nat) : Opcode → Option (Operand × Nat)
  | .tableSwitch => chunk.tableOperand? offset
  | .lookupSwitch => chunk.lookupOperand? offset
  | .jump | .jumpIfFalse | .jumpIfTrue => do
    let target ← chunk.target? offset (offset + 1)
    return (.jump target, offset + 5)
  | .incLocal => do
    let slot ← chunk.u16? (offset + 1)
    let delta ← chunk.i16? (offset + 3)
    return (.increment slot delta, offset + 5)
  | .invokeStatic | .invokeVirtual | .invokeInterface | .invokeSpecial => do
    let constant ← chunk.u16? (offset + 1)
    let argCount ← chunk.byte? (offset + 3)
    return (.invoke constant argCount, offset + 4)
  | .create => do
    let ty ← chunk.u16? (offset + 1)
    let constructor ← chunk.u16? (offset + 3)
    let argCount ← chunk.byte? (offset + 5)
    return (.create ty constructor argCount, offset + 6)
  | op => match op.operandSize with
    | 0 => some (.none, offset + 1)
    | 1 => (chunk.byte? (offset + 1)).map fun byte => (.byte byte, offset + 2)
    | _ => (chunk.u16? (offset + 1)).map fun word => (.short word, offset + 3)

/-- The instruction at `offset`, with the offset of the next one. -/
def decode? (chunk : Chunk) (offset : Nat) : Option (Instruction × Nat) := do
  let op ← chunk.op? offset
  let (operand, next) ← chunk.operand? offset op
  return (⟨offset, op, operand⟩, next)

/-- Decode up to `steps` instructions from `offset` on. -/
def decodeFrom (chunk : Chunk) : Nat → Nat → Array Instruction → Array Instruction
  | 0, _, done => done
  | steps + 1, offset, done =>
    match chunk.decode? offset with
    | some (instruction, next) => chunk.decodeFrom steps next (done.push instruction)
    | none => done

/-- All instructions up to the first offset without one. An instruction takes
at least one byte, so there are no more of them than bytes. -/
def instructions (chunk : Chunk) : List Instruction :=
  (chunk.decodeFrom chunk.size 0 #[]).toList

def opcodes (chunk : Chunk) : List Opcode := chunk.instructions.map InstructionOf.op

/-- The opcodes occur in the chunk in this order, possibly with others between. -/
def containsInOrder (chunk : Chunk) (ops : List Opcode) : Bool :=
  ops.isSublist chunk.opcodes

end Chunk

end StackLowering
