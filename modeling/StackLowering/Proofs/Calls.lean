import StackLowering.Proofs.Assembly
/-!
Driving an assembler by a sequence of calls. The calls alone say which
instructions are written, at which offsets and with which operands, and where
each label ends up. Finished code is exactly that, and assembling fails for no
other reason than an operand that does not fit or a label that is not bound.
-/

namespace StackLowering

/-- The operand is the pool index of a digest. -/
def Opcode.takesDigest : Opcode → Bool
  | getField | setField | getStatic | setStatic | newArray | cast | instanceOf => true
  | _ => false

theorem Opcode.operandSize_of_takesDigest {op : Opcode} (h : op.takesDigest = true) :
    op.operandSize = 2 := by
  cases op <;> simp [takesDigest, operandSize] at h ⊢

/-- A call on an assembler. Emitters of particular constants, and of single
opcodes such as the null reference, are the general calls at these values. -/
inductive Call where
  | op (op : Opcode)
  | opByte (op : Opcode) (byte : UInt8)
  | opU16 (op : Opcode) (value : UInt16)
  | constant (constant : Constant)
  | int (value : Int32)
  | bool (value : Bool)
  | getLocal (slot : UInt16)
  | setLocal (slot : UInt16)
  | incLocal (slot : UInt16) (delta : Int16)
  | digest (op : Opcode) (digest : Digest)
  | invoke (kind : InvokeKind) (method : Digest) (args : Nat)
  | create (ty constructor : Digest) (args : Nat)
  | ret (ty : Ty)
  | pop (width : Nat)
  | dup (width : Nat)
  | jump (op : Opcode) (target : Label)
  | tableSwitch (low high : Int32) (otherwise : Label) (targets : List Label)
  | lookupSwitch (otherwise : Label) (pairs : List (Int32 × Label))
  | newLabel
  | bind (label : Label)
  | enterFrame
  | exitFrame
  | region (start stop handler : Label) (catches : Option Digest)

/-- The load of a constant at a pool index. -/
def loadConstant (index : Nat) : Opcode × OperandOf Label :=
  if index < 256 then (.constant, .byte (UInt8.ofNat index))
  else (.constantWide, .short (UInt16.ofNat index))

/-- An access to a local, in its narrow or its wide form. -/
def accessLocal (narrow wide : Opcode) (slot : UInt16) : Opcode × OperandOf Label :=
  if slot < 256 then (narrow, .byte slot.toUInt8) else (wide, .short slot)

/-- The indices that constants get when they are added one after the other. -/
def Pool.indices (pool : Pool) : List Constant → List Nat
  | [] => []
  | constant :: rest => (pool.add constant).1 :: (pool.add constant).2.indices rest

namespace Call

def run : Call → Assembler → Assembler
  | .op code => Assembler.op code
  | .opByte code byte => Assembler.opByte code byte
  | .opU16 code word => Assembler.opU16 code word
  | .constant value => Assembler.constant value
  | .int value => Assembler.int value
  | .bool value => Assembler.bool value
  | .getLocal slot => Assembler.getLocal slot
  | .setLocal slot => Assembler.setLocal slot
  | .incLocal slot delta => Assembler.incLocal slot delta
  | .digest code value => Assembler.opDigest code value
  | .invoke kind method args => Assembler.invoke kind method args
  | .create ty constructor args => Assembler.create ty constructor args
  | .ret ty => Assembler.ret ty
  | .pop width => Assembler.pop width
  | .dup width => Assembler.dup width
  | .jump code target => Assembler.jump code target
  | .tableSwitch low high otherwise targets => Assembler.tableSwitch low high otherwise targets
  | .lookupSwitch otherwise pairs => Assembler.lookupSwitch otherwise pairs
  | .newLabel => fun asm => asm.newLabel.2
  | .bind label => Assembler.bind label
  | .enterFrame => Assembler.enterFrame
  | .exitFrame => Assembler.exitFrame
  | .region start stop handler catches => Assembler.region start stop handler catches

/-- The constants that the call looks up in the pool, in order. -/
def constants : Call → List Constant
  | .constant value => [value]
  | .int value => if value = 0 then [] else if value = 1 then [] else [.int value]
  | .digest _ value => [.digest value]
  | .invoke _ method _ => [.digest method]
  | .create ty constructor _ => [.digest ty, .digest constructor]
  | _ => []

/-- The argument counts that the call writes. -/
def argCounts : Call → List Nat
  | .invoke _ _ args | .create _ _ args => [args]
  | _ => []

/-- The instruction that the call writes, given the pool it finds. -/
def instruction? (pool : Pool) : Call → Option (Opcode × OperandOf Label)
  | .op code => some (code, .none)
  | .opByte code byte => some (code, .byte byte)
  | .opU16 code word => some (code, .short word)
  | .constant value => some (loadConstant (pool.add value).1)
  | .int value =>
    if value = 0 then some (.pushZero, .none)
    else if value = 1 then some (.pushOne, .none)
    else some (loadConstant (pool.add (.int value)).1)
  | .bool value => some (if value then .pushTrue else .pushFalse, .none)
  | .getLocal slot => some (accessLocal .getLocal .getLocalWide slot)
  | .setLocal slot => some (accessLocal .setLocal .setLocalWide slot)
  | .incLocal slot delta => some (.incLocal, .increment slot delta)
  | .digest code value => some (code, .short (UInt16.ofNat (pool.add (.digest value)).1))
  | .invoke kind method args =>
    some (.ofInvoke kind,
      .invoke (UInt16.ofNat (pool.add (.digest method)).1) (UInt8.ofNat args))
  | .create ty constructor args =>
    some (.create, .create (UInt16.ofNat (pool.add (.digest ty)).1)
      (UInt16.ofNat ((pool.add (.digest ty)).2.add (.digest constructor)).1) (UInt8.ofNat args))
  | .ret ty => some (if ty.isVoid then .returnVoid else .returnValue, .none)
  | .pop width => if width = 0 then none else some (if width = 1 then .pop else .pop2, .none)
  | .dup width => if width = 0 then none else some (if width = 1 then .dup else .dup2, .none)
  | .jump code target => some (code, .jump target)
  | .tableSwitch low high otherwise targets =>
    some (.tableSwitch, .table otherwise low high targets)
  | .lookupSwitch otherwise pairs => some (.lookupSwitch, .lookup otherwise pairs)
  | .newLabel | .bind _ | .enterFrame | .exitFrame | .region .. => none

/-- The label that the call binds. -/
def bound? : Call → Option Label
  | .bind label => some label
  | _ => none

/-- The regions that the call declares. -/
def regions : Call → List Region
  | .region start stop handler catches => [⟨start, stop, handler, catches⟩]
  | _ => []

/-- The labels that the call needs to be bound in the end. -/
def uses : Call → List Label
  | .jump _ target => [target]
  | .tableSwitch _ _ otherwise targets => otherwise :: targets
  | .lookupSwitch otherwise pairs => otherwise :: pairs.map Prod.snd
  | .region start stop handler _ => [start, stop, handler]
  | _ => []

/-- The opcode belongs to the emitter, and a switch has the size it says. -/
def Proper : Call → Prop
  | .op code => code.operandSize = 0 ∧ code.isSwitch = false
  | .opByte code _ => code.operandSize = 1
  | .opU16 code _ => code.operandSize = 2
  | .digest code _ => code.takesDigest = true
  | .jump code _ => code.isJump = true
  | .tableSwitch low high _ targets => (targets.length : Int) = high.toInt - low.toInt + 1
  | .lookupSwitch _ pairs => pairs.length < 2 ^ 31
  | _ => True

/-- All operands that the call takes from a pool or counts fit their bytes. -/
structure Encodes (pool : Pool) (call : Call) : Prop where
  indices : ∀ index ∈ pool.indices call.constants, index < 65536
  counts : ∀ count ∈ call.argCounts, count < 256

end Call

namespace Assembler

/-- What emitters leave alone. -/
def layout (asm : Assembler) :
    Array (Option Nat) × Array Region × List Nat × Array Frame :=
  (asm.positions, asm.regions, asm.openFrames, asm.frames)

section Place

variable (asm : Assembler) (op : Opcode) (operand : OperandOf Label)

theorem place_eq : asm.place op operand =
    { asm with
      chunk := (asm.place op operand).chunk
      fixups := (asm.place op operand).fixups } :=
  foldl_writePiece_eq asm.offset _ asm

@[simp]
theorem layout_place : (asm.place op operand).layout = asm.layout := by
  rw [place_eq]
  rfl

@[simp]
theorem pool_place : (asm.place op operand).pool = asm.pool := by
  rw [place_eq]

@[simp]
theorem overflow_place : (asm.place op operand).overflow = asm.overflow := by
  rw [place_eq]

end Place

theorem constantIndex_snd (asm : Assembler) (value : Constant) :
    (asm.constantIndex value).2 =
      { asm with
        pool := (asm.pool.add value).2
        overflow := asm.overflow.or (if (asm.pool.add value).1 < 65536 then none
          else some (.constantIndex, (asm.pool.add value).1)) } := by
  rw [constantIndex]
  by_cases h : (asm.pool.add value).1 < 65536
  · simp [h]
  · simp [h, noteOverflow]

theorem constantIndex_of_lt {asm : Assembler} {value : Constant}
    (h : (asm.pool.add value).1 < 65536) :
    asm.constantIndex value =
      (UInt16.ofNat (asm.pool.add value).1, { asm with pool := (asm.pool.add value).2 }) := by
  rw [constantIndex]
  exact if_pos h

theorem argCount_snd (asm : Assembler) (count : Nat) :
    (asm.argCount count).2 =
      { asm with
        overflow := asm.overflow.or (if count < 256 then none
          else some (.argumentCount, count)) } := by
  rw [argCount]
  by_cases h : count < 256
  · simp [h]
  · simp [h, noteOverflow]

theorem argCount_of_lt {asm : Assembler} {count : Nat} (h : count < 256) :
    asm.argCount count = (UInt8.ofNat count, asm) :=
  if_pos h

theorem opDigest_eq_place (asm : Assembler) (op : Opcode) (digest : Digest) :
    asm.opDigest op digest =
      (asm.digestIndex digest).2.place op (.short (asm.digestIndex digest).1) := rfl

theorem invoke_eq_place (asm : Assembler) (kind : InvokeKind) (method : Digest) (args : Nat) :
    asm.invoke kind method args =
      ((asm.digestIndex method).2.argCount args).2.place (.ofInvoke kind)
        (.invoke (asm.digestIndex method).1 ((asm.digestIndex method).2.argCount args).1) := rfl

theorem create_eq_place (asm : Assembler) (ty constructor : Digest) (args : Nat) :
    asm.create ty constructor args =
      (((asm.digestIndex ty).2.digestIndex constructor).2.argCount args).2.place .create
        (.create (asm.digestIndex ty).1 ((asm.digestIndex ty).2.digestIndex constructor).1
          (((asm.digestIndex ty).2.digestIndex constructor).2.argCount args).1) := rfl

theorem constant_eq_place (asm : Assembler) (value : Constant) :
    asm.constant value = (asm.constantIndex value).2.place
      (loadConstant (asm.constantIndex value).1.toNat).1
      (loadConstant (asm.constantIndex value).1.toNat).2 := by
  have hlt : (asm.constantIndex value).1 < 256 ↔ (asm.constantIndex value).1.toNat < 256 :=
    UInt16.lt_iff_toNat_lt
  rw [constant]
  by_cases h : (asm.constantIndex value).1 < 256
  · simp only [h, if_true, loadConstant, hlt.mp h]
    rw [opByte_eq_place]
    simp
  · simp only [h, if_false, loadConstant, mt hlt.mpr h]
    rw [opU16_eq_place]
    simp

theorem getLocal_eq_place (asm : Assembler) (slot : UInt16) :
    asm.getLocal slot = asm.place (accessLocal .getLocal .getLocalWide slot).1
      (accessLocal .getLocal .getLocalWide slot).2 := by
  by_cases h : slot < 256
  · simp only [getLocal, accessLocal, h, if_true, opByte_eq_place]
  · simp only [getLocal, accessLocal, h, if_false, opU16_eq_place]

theorem setLocal_eq_place (asm : Assembler) (slot : UInt16) :
    asm.setLocal slot = asm.place (accessLocal .setLocal .setLocalWide slot).1
      (accessLocal .setLocal .setLocalWide slot).2 := by
  by_cases h : slot < 256
  · simp only [setLocal, accessLocal, h, if_true, opByte_eq_place]
  · simp only [setLocal, accessLocal, h, if_false, opU16_eq_place]

end Assembler

variable {pool : Pool} {calls : List Call}

namespace Call

theorem encodes_iff {call : Call} :
    call.Encodes pool ↔ (∀ index ∈ pool.indices call.constants, index < 65536) ∧
      ∀ count ∈ call.argCounts, count < 256 :=
  ⟨fun h => ⟨h.indices, h.counts⟩, fun h => ⟨h.1, h.2⟩⟩

@[simp]
theorem targets_loadConstant (index : Nat) : (loadConstant index).2.targets = [] := by
  rw [loadConstant]
  split_ifs <;> rfl

@[simp]
theorem targets_accessLocal (narrow wide : Opcode) (slot : UInt16) :
    (accessLocal narrow wide slot).2.targets = [] := by
  rw [accessLocal]
  split_ifs <;> rfl

/-- What a call that writes an instruction does to an assembler. Operands that do
not fit are noted, and the instruction is as it should be unless there are some.
Its targets are as they should be in any case. -/
def Places (asm : Assembler) (call : Call) (emission : Opcode × OperandOf Label) : Prop :=
  ∃ op operand overflow,
    call.run asm = Assembler.place op operand
      { asm with pool := asm.pool.addAll call.constants, overflow := overflow } ∧
    (overflow = none ↔ asm.overflow = none ∧ call.Encodes asm.pool) ∧
    (call.Encodes asm.pool → emission = (op, operand)) ∧ operand.targets = call.uses

section Places

variable {call : Call} {asm : Assembler} {emission : Opcode × OperandOf Label}

theorem places_of_run (hconstants : call.constants = []) (hcounts : call.argCounts = [])
    (hrun : call.run asm = asm.place emission.1 emission.2)
    (htargets : emission.2.targets = call.uses) : call.Places asm emission := by
  refine ⟨emission.1, emission.2, asm.overflow, ?_, ?_, fun _ => rfl, htargets⟩
  · rw [hconstants]
    exact hrun
  · simp [encodes_iff, hconstants, hcounts, Pool.indices]

theorem places_constant {value : Constant} (hconstants : call.constants = [value])
    (hcounts : call.argCounts = []) (hrun : call.run asm = asm.constant value)
    (huses : call.uses = []) : call.Places asm (loadConstant (asm.pool.add value).1) := by
  have hencodes : call.Encodes asm.pool ↔ (asm.pool.add value).1 < 65536 := by
    simp [encodes_iff, hconstants, hcounts, Pool.indices]
  refine ⟨(loadConstant (asm.constantIndex value).1.toNat).1,
    (loadConstant (asm.constantIndex value).1.toNat).2, (asm.constantIndex value).2.overflow,
    ?_, ?_, fun h => ?_, (targets_loadConstant _).trans huses.symm⟩
  · rw [hrun, hconstants, Assembler.constant_eq_place, Assembler.constantIndex_snd]
    rfl
  · rw [hencodes, Assembler.constantIndex_snd]
    simp
  · have hnat : (UInt16.ofNat (asm.pool.add value).1).toNat = (asm.pool.add value).1 :=
      UInt16.toNat_ofNat_of_lt' (hencodes.mp h)
    rw [Assembler.constantIndex_of_lt (hencodes.mp h), hnat]

theorem places (h : call.instruction? asm.pool = some emission) : call.Places asm emission := by
  cases call with
  | constant value =>
    obtain rfl := Option.some.inj h
    exact places_constant rfl rfl rfl rfl
  | int value =>
    rw [instruction?] at h
    split_ifs at h with hzero hone
    · obtain rfl := Option.some.inj h
      subst hzero
      exact places_of_run rfl rfl rfl rfl
    · obtain rfl := Option.some.inj h
      subst hone
      exact places_of_run rfl rfl rfl rfl
    · obtain rfl := Option.some.inj h
      have hconstants : (Call.int value).constants = [.int value] := by
        simp [constants, hzero, hone]
      have hrun : (Call.int value).run asm = asm.constant (.int value) := by
        simp [run, Assembler.int, hzero, hone]
      exact places_constant hconstants rfl hrun rfl
  | getLocal slot =>
    obtain rfl := Option.some.inj h
    exact places_of_run rfl rfl (Assembler.getLocal_eq_place asm slot) (targets_accessLocal _ _ slot)
  | setLocal slot =>
    obtain rfl := Option.some.inj h
    exact places_of_run rfl rfl (Assembler.setLocal_eq_place asm slot) (targets_accessLocal _ _ slot)
  | digest code value =>
    obtain rfl := Option.some.inj h
    have hencodes : (Call.digest code value).Encodes asm.pool ↔
        (asm.pool.add (.digest value)).1 < 65536 := by
      simp [encodes_iff, constants, argCounts, Pool.indices]
    refine ⟨code, .short (asm.digestIndex value).1, (asm.digestIndex value).2.overflow,
      ?_, ?_, fun hfits => ?_, rfl⟩
    · rw [run, Assembler.opDigest_eq_place, Assembler.digestIndex, Assembler.constantIndex_snd]
      rfl
    · rw [hencodes, Assembler.digestIndex, Assembler.constantIndex_snd]
      simp
    · rw [Assembler.digestIndex, Assembler.constantIndex_of_lt (hencodes.mp hfits)]
  | invoke kind method args =>
    obtain rfl := Option.some.inj h
    have hencodes : (Call.invoke kind method args).Encodes asm.pool ↔
        (asm.pool.add (.digest method)).1 < 65536 ∧ args < 256 := by
      simp [encodes_iff, constants, argCounts, Pool.indices]
    refine ⟨.ofInvoke kind, .invoke (asm.digestIndex method).1
      ((asm.digestIndex method).2.argCount args).1,
      ((asm.digestIndex method).2.argCount args).2.overflow, ?_, ?_, fun hfits => ?_, rfl⟩
    · rw [run, Assembler.invoke_eq_place, Assembler.argCount_snd, Assembler.digestIndex,
        Assembler.constantIndex_snd]
      rfl
    · rw [hencodes, Assembler.argCount_snd, Assembler.digestIndex, Assembler.constantIndex_snd]
      simp [and_assoc]
    · obtain ⟨hindex, hcount⟩ := hencodes.mp hfits
      rw [Assembler.digestIndex, Assembler.constantIndex_of_lt hindex,
        Assembler.argCount_of_lt hcount]
  | create ty constructor args =>
    obtain rfl := Option.some.inj h
    have hencodes : (Call.create ty constructor args).Encodes asm.pool ↔
        ((asm.pool.add (.digest ty)).1 < 65536 ∧
          ((asm.pool.add (.digest ty)).2.add (.digest constructor)).1 < 65536) ∧ args < 256 := by
      simp [encodes_iff, constants, argCounts, Pool.indices]
    refine ⟨.create, .create (asm.digestIndex ty).1
      ((asm.digestIndex ty).2.digestIndex constructor).1
      (((asm.digestIndex ty).2.digestIndex constructor).2.argCount args).1,
      (((asm.digestIndex ty).2.digestIndex constructor).2.argCount args).2.overflow,
      ?_, ?_, fun hfits => ?_, rfl⟩
    · rw [run, Assembler.create_eq_place, Assembler.argCount_snd, Assembler.digestIndex,
        Assembler.constantIndex_snd, Assembler.digestIndex, Assembler.constantIndex_snd]
      rfl
    · rw [hencodes, Assembler.argCount_snd, Assembler.digestIndex, Assembler.constantIndex_snd,
        Assembler.digestIndex, Assembler.constantIndex_snd]
      simp [and_assoc]
    · obtain ⟨⟨hty, hconstructor⟩, hcount⟩ := hencodes.mp hfits
      rw [Assembler.digestIndex, Assembler.constantIndex_of_lt hty, Assembler.digestIndex,
        Assembler.constantIndex_of_lt hconstructor, Assembler.argCount_of_lt hcount]
  | pop width | dup width =>
    rcases width with _ | _ | width
    · simp [instruction?] at h
    all_goals
      obtain rfl := Option.some.inj h
      exact places_of_run rfl rfl rfl rfl
  | tableSwitch low high otherwise targets =>
    obtain rfl := Option.some.inj h
    exact places_of_run rfl rfl (Assembler.tableSwitch_eq_place asm low high otherwise targets)
      rfl
  | lookupSwitch otherwise pairs =>
    obtain rfl := Option.some.inj h
    exact places_of_run rfl rfl (Assembler.lookupSwitch_eq_place asm otherwise pairs) rfl
  | newLabel | bind label | enterFrame | exitFrame | region start stop handler catches =>
    simp [instruction?] at h
  | _ =>
    obtain rfl := Option.some.inj h
    exact places_of_run rfl rfl rfl rfl

/-- The calls that write no instruction. -/
inductive Silent : Call → Prop
  | pop : Silent (.pop 0)
  | dup : Silent (.dup 0)
  | newLabel : Silent .newLabel
  | bind (label : Label) : Silent (.bind label)
  | enterFrame : Silent .enterFrame
  | exitFrame : Silent .exitFrame
  | region (start stop handler : Label) (catches : Option Digest) :
      Silent (.region start stop handler catches)

theorem silent_of_instruction? (h : call.instruction? pool = none) : call.Silent := by
  cases call with
  | int value =>
    rw [instruction?] at h
    split_ifs at h
  | pop width | dup width =>
    rcases width with _ | width
    · constructor
    · cases h
  | newLabel | bind label | enterFrame | exitFrame | region start stop handler catches =>
    constructor
  | _ => cases h

/-- A call without an instruction changes only the layout. -/
theorem run_of_instruction?_none (h : call.instruction? asm.pool = none) :
    (call.run asm).chunk = asm.chunk ∧ (call.run asm).fixups = asm.fixups ∧
      (call.run asm).pool = asm.pool ∧ (call.run asm).overflow = asm.overflow ∧
      call.constants = [] ∧ call.argCounts = [] := by
  cases silent_of_instruction? h with
  | exitFrame =>
    rw [run, Assembler.exitFrame]
    cases asm.openFrames <;> exact ⟨rfl, rfl, rfl, rfl, rfl, rfl⟩
  | _ => exact ⟨rfl, rfl, rfl, rfl, rfl, rfl⟩

end Places

@[simp]
theorem pool_run (call : Call) (asm : Assembler) :
    (call.run asm).pool = asm.pool.addAll call.constants := by
  cases h : call.instruction? asm.pool with
  | none =>
    obtain ⟨_, _, hpool, _, hconstants, _⟩ := run_of_instruction?_none h
    rw [hpool, hconstants]
    rfl
  | some emission =>
    obtain ⟨op, operand, overflow, hrun, _⟩ := places h
    rw [hrun, Assembler.pool_place]

theorem overflow_run_eq_none {call : Call} {asm : Assembler} :
    (call.run asm).overflow = none ↔ asm.overflow = none ∧ call.Encodes asm.pool := by
  cases h : call.instruction? asm.pool with
  | none =>
    obtain ⟨_, _, _, hoverflow, hconstants, hcounts⟩ := run_of_instruction?_none h
    rw [hoverflow]
    simp [encodes_iff, hconstants, hcounts, Pool.indices]
  | some emission =>
    obtain ⟨op, operand, overflow, hrun, hnone, _⟩ := places h
    rw [hrun, Assembler.overflow_place]
    exact hnone

theorem run_eq_place {call : Call} {asm : Assembler} {op : Opcode} {operand : OperandOf Label}
    (hencodes : call.Encodes asm.pool) (h : call.instruction? asm.pool = some (op, operand)) :
    ∃ overflow, call.run asm = Assembler.place op operand
      { asm with pool := asm.pool.addAll call.constants, overflow := overflow } := by
  obtain ⟨_, _, overflow, hrun, _, hemission, _⟩ := places h
  cases hemission hencodes
  exact ⟨overflow, hrun⟩

theorem loadConstant_fits (index : Nat) : (loadConstant index).2.Fits (loadConstant index).1 := by
  rw [loadConstant]
  split_ifs <;> rfl

theorem accessLocal_fits (narrow wide : Opcode) (hnarrow : narrow.operandSize = 1)
    (hwide : wide.operandSize = 2) (slot : UInt16) :
    (accessLocal narrow wide slot).2.Fits (accessLocal narrow wide slot).1 := by
  rw [accessLocal]
  split_ifs
  · exact hnarrow
  · exact hwide

/-- The instructions that proper calls write. -/
inductive Writes (pool : Pool) : Call → Opcode × OperandOf Label → Prop
  | bare {call : Call} {op : Opcode} (hop : op.operandSize = 0 ∧ op.isSwitch = false)
      (hconstants : call.constants = [])
      (hempty : call.instruction? .empty = some (op, .none)) : Writes pool call (op, .none)
  | byte {op : Opcode} (hop : op.operandSize = 1) (value : UInt8) :
      Writes pool (.opByte op value) (op, .byte value)
  | short {op : Opcode} (hop : op.operandSize = 2) (value : UInt16) :
      Writes pool (.opU16 op value) (op, .short value)
  | constant {call : Call} {value : Constant} (hconstants : call.constants = [value])
      (hempty : call.instruction? .empty = some (loadConstant (Pool.empty.add value).1)) :
      Writes pool call (loadConstant (pool.add value).1)
  | getLocal (slot : UInt16) :
      Writes pool (.getLocal slot) (accessLocal .getLocal .getLocalWide slot)
  | setLocal (slot : UInt16) :
      Writes pool (.setLocal slot) (accessLocal .setLocal .setLocalWide slot)
  | incLocal (slot : UInt16) (delta : Int16) :
      Writes pool (.incLocal slot delta) (.incLocal, .increment slot delta)
  | digest {op : Opcode} (hop : op.takesDigest = true) (value : Digest) :
      Writes pool (.digest op value) (op, .short (UInt16.ofNat (pool.add (.digest value)).1))
  | invoke (kind : InvokeKind) (method : Digest) (args : Nat) :
      Writes pool (.invoke kind method args) (.ofInvoke kind,
        .invoke (UInt16.ofNat (pool.add (.digest method)).1) (UInt8.ofNat args))
  | create (ty constructor : Digest) (args : Nat) :
      Writes pool (.create ty constructor args) (.create,
        .create (UInt16.ofNat (pool.add (.digest ty)).1)
          (UInt16.ofNat ((pool.add (.digest ty)).2.add (.digest constructor)).1)
          (UInt8.ofNat args))
  | jump {op : Opcode} (hop : op.isJump = true) (target : Label) :
      Writes pool (.jump op target) (op, .jump target)
  | tableSwitch {low high : Int32} (otherwise : Label) {targets : List Label}
      (hsize : (targets.length : Int) = high.toInt - low.toInt + 1) :
      Writes pool (.tableSwitch low high otherwise targets)
        (.tableSwitch, .table otherwise low high targets)
  | lookupSwitch (otherwise : Label) {pairs : List (Int32 × Label)}
      (hsize : pairs.length < 2 ^ 31) :
      Writes pool (.lookupSwitch otherwise pairs) (.lookupSwitch, .lookup otherwise pairs)

theorem Proper.writes {call : Call} (h : call.Proper) {emission : Opcode × OperandOf Label}
    (hinstr : call.instruction? pool = some emission) : call.Writes pool emission := by
  cases call with
  | op code =>
    obtain rfl := Option.some.inj hinstr
    exact .bare h rfl rfl
  | constant value =>
    obtain rfl := Option.some.inj hinstr
    exact .constant rfl rfl
  | int value =>
    rw [instruction?] at hinstr
    split_ifs at hinstr with hzero hone <;> obtain rfl := Option.some.inj hinstr
    · exact .bare (by decide) (if_pos hzero) (if_pos hzero)
    · apply Writes.bare (by decide) <;> simp [constants, instruction?, hone]
    · apply Writes.constant <;> simp [constants, instruction?, hzero, hone]
  | bool value | ret ty =>
    obtain rfl := Option.some.inj hinstr
    refine .bare ?_ rfl rfl
    split_ifs <;> decide
  | pop width | dup width =>
    have hempty := hinstr
    rw [instruction?] at hinstr
    split_ifs at hinstr <;> obtain rfl := Option.some.inj hinstr <;>
      exact .bare (by decide) rfl hempty
  | newLabel | bind label | enterFrame | exitFrame | region start stop handler catches =>
    cases hinstr
  | _ =>
    obtain rfl := Option.some.inj hinstr
    constructor <;> exact h

/-- The operand of a proper call has the form that belongs to its opcode. -/
theorem Proper.fits {call : Call} (h : call.Proper) {emission : Opcode × OperandOf Label}
    (hinstr : call.instruction? pool = some emission) : emission.2.Fits emission.1 := by
  cases h.writes hinstr with
  | bare hop | byte hop | short hop | jump hop => exact hop
  | constant => exact loadConstant_fits _
  | getLocal slot | setLocal slot => exact accessLocal_fits _ _ rfl rfl slot
  | incLocal | create => rfl
  | digest hop => exact Opcode.operandSize_of_takesDigest hop
  | invoke kind => exact ⟨kind, rfl⟩
  | tableSwitch _ hsize | lookupSwitch _ hsize => exact ⟨rfl, hsize⟩

/-- The instruction that the call writes behind the code so far. -/
def written (asm : Assembler) (call : Call) : List (InstructionOf Label) :=
  ((call.instruction? asm.pool).map fun emission =>
    ⟨asm.offset, emission.1, emission.2⟩).toList

theorem layout_run {call : Call} {asm : Assembler} {emission : Opcode × OperandOf Label}
    (h : call.instruction? asm.pool = some emission) :
    (call.run asm).layout = asm.layout := by
  obtain ⟨op, operand, overflow, hrun, _⟩ := places h
  rw [hrun, Assembler.layout_place]
  rfl

theorem bound?_of_instruction? {call : Call} {emission : Opcode × OperandOf Label}
    (h : call.instruction? pool = some emission) :
    call.bound? = none ∧ call.regions = [] := by
  cases call with
  | bind label => simp [instruction?] at h
  | region start stop handler catches => simp [instruction?] at h
  | _ => exact ⟨rfl, rfl⟩

/-- Labels are bound to the current offset, and nothing else moves them. -/
theorem position?_run {call : Call} {asm : Assembler}
    (hbound : ∀ label ∈ call.bound?, label.id < asm.positions.size) (label : Label) :
    (call.run asm).position? label =
      if call.bound? = some label then some asm.offset else asm.position? label := by
  cases hinstr : call.instruction? asm.pool with
  | some emission =>
    have hpositions : (call.run asm).positions = asm.positions :=
      congrArg Prod.fst (layout_run hinstr)
    rw [Assembler.position?, hpositions, (bound?_of_instruction? hinstr).1]
    simp [Assembler.position?]
  | none =>
    cases silent_of_instruction? hinstr with
    | newLabel =>
      simp only [run, bound?, Assembler.newLabel, Assembler.position?, Array.getElem?_push,
        reduceCtorEq, if_false]
      split_ifs with hlast
      · simp [hlast]
      · rfl
    | bind other =>
      have hlt : other.id < asm.positions.size := hbound other rfl
      by_cases heq : other = label
      · subst heq
        simp [run, bound?, Assembler.bind, Assembler.position?, hlt]
      · have hid : other.id ≠ label.id := fun hid => heq (congrArg Label.mk hid)
        simp [run, bound?, Assembler.bind, Assembler.position?, heq,
          Array.getElem?_setIfInBounds_ne hid]
    | exitFrame =>
      rw [run, Assembler.exitFrame]
      cases asm.openFrames <;> rfl
    | _ => rfl

/-- How many labels the call hands out. -/
def newLabels : Call → Nat
  | .newLabel => 1
  | _ => 0

theorem size_positions_run (call : Call) (asm : Assembler) :
    (call.run asm).positions.size = asm.positions.size + call.newLabels := by
  cases hinstr : call.instruction? asm.pool with
  | some emission =>
    have hpositions : (call.run asm).positions = asm.positions :=
      congrArg Prod.fst (layout_run hinstr)
    rw [hpositions]
    cases call with
    | newLabel => cases hinstr
    | _ => rfl
  | none =>
    cases silent_of_instruction? hinstr with
    | newLabel => simp [run, Assembler.newLabel, newLabels]
    | bind label => simp [run, Assembler.bind, newLabels]
    | exitFrame =>
      rw [run, Assembler.exitFrame]
      cases asm.openFrames <;> rfl
    | _ => rfl

theorem regions_run (call : Call) (asm : Assembler) :
    (call.run asm).regions.toList = asm.regions.toList ++ call.regions := by
  cases hinstr : call.instruction? asm.pool with
  | some emission =>
    have hregions : (call.run asm).regions = asm.regions :=
      congrArg (fun layout => layout.2.1) (layout_run hinstr)
    rw [hregions, (bound?_of_instruction? hinstr).2, List.append_nil]
  | none =>
    cases silent_of_instruction? hinstr with
    | region start stop handler catches => simp [run, Assembler.region, regions]
    | exitFrame =>
      rw [run, Assembler.exitFrame]
      cases asm.openFrames <;> simp [regions]
    | _ => exact (List.append_nil _).symm

/-- The labels that have to be bound stand in the instruction or in the region. -/
theorem mem_uses {call : Call} (asm : Assembler) {label : Label} :
    label ∈ call.uses ↔
      (∃ instruction ∈ call.written asm, label ∈ instruction.operand.targets) ∨
        ∃ region ∈ call.regions, label ∈ region.labels := by
  cases call with
  | constant value | getLocal slot | setLocal slot => simp [uses, written, instruction?, regions]
  | int value =>
    simp only [uses, written, instruction?, regions]
    split_ifs
    · simp [OperandOf.targets]
    · simp [OperandOf.targets]
    · simp
  | pop width | dup width =>
    simp only [uses, written, instruction?, regions]
    split_ifs <;> simp [OperandOf.targets]
  | region start stop handler catches =>
    simp [uses, written, instruction?, regions, Region.labels]
  | _ => simp [uses, written, instruction?, regions, OperandOf.targets]

end Call

/-- One call appends its instruction to the code held. -/
theorem Assembler.Holds.run {asm : Assembler} {code : List (InstructionOf Label)}
    (h : asm.Holds code) {call : Call} (hproper : call.Proper)
    (hencodes : call.Encodes asm.pool) : (call.run asm).Holds (code ++ call.written asm) := by
  rw [Call.written]
  cases hinstr : call.instruction? asm.pool with
  | none =>
    obtain ⟨hchunk, hfixups, _⟩ := Call.run_of_instruction?_none hinstr
    rw [Option.map_none, Option.toList_none, List.append_nil]
    exact h.congr hchunk hfixups
  | some emission =>
    obtain ⟨op, operand⟩ := emission
    obtain ⟨overflow, hrun⟩ := Call.run_eq_place hencodes hinstr
    have hholds : Assembler.Holds
        { asm with pool := asm.pool.addAll call.constants, overflow := overflow } code :=
      h.congr rfl rfl
    rw [hrun]
    exact hholds.place (hproper.fits hinstr)

namespace Assembler

def runAll (calls : List Call) (asm : Assembler) : Assembler :=
  calls.foldl (fun asm call => call.run asm) asm

/-- Each call is proper where it is made, and labels are bound that were
handed out before. -/
def Allows (asm : Assembler) : List Call → Prop
  | [] => True
  | call :: rest =>
    call.Proper ∧ (∀ label ∈ call.bound?, label.id < asm.positions.size) ∧
      (call.run asm).Allows rest

/-- The instructions of the calls, each at the offset where it is written. -/
def written (asm : Assembler) : List Call → List (InstructionOf Label)
  | [] => []
  | call :: rest => call.written asm ++ (call.run asm).written rest

/-- The offset to which the calls bind a label. -/
def boundAt (asm : Assembler) (label : Label) : List Call → Option Nat
  | [] => none
  | call :: rest =>
    ((call.run asm).boundAt label rest).or
      (if call.bound? = some label then some asm.offset else none)

end Assembler

theorem Pool.indices_append (pool : Pool) (first rest : List Constant) :
    pool.indices (first ++ rest) = pool.indices first ++ (pool.addAll first).indices rest := by
  induction first generalizing pool with
  | nil => rfl
  | cons value first ih =>
    rw [List.cons_append, indices, ih, indices, List.cons_append]
    rfl

namespace Assembler

variable {asm : Assembler}

/-- Nothing is noted as long as every index and every count fits. -/
theorem overflow_runAll_eq_none (calls : List Call) :
    (asm.runAll calls).overflow = none ↔ asm.overflow = none ∧
      (∀ index ∈ asm.pool.indices (calls.flatMap Call.constants), index < 65536) ∧
        ∀ call ∈ calls, ∀ count ∈ call.argCounts, count < 256 := by
  induction calls generalizing asm with
  | nil => simp [runAll, Pool.indices]
  | cons call rest ih =>
    have hstep : (asm.runAll (call :: rest)) = (call.run asm).runAll rest := rfl
    rw [hstep, ih, Call.overflow_run_eq_none, Call.pool_run, List.flatMap_cons,
      Pool.indices_append, List.forall_mem_append, List.forall_mem_cons]
    constructor
    · rintro ⟨⟨hnone, hencodes⟩, hindices, hcounts⟩
      exact ⟨hnone, ⟨hencodes.indices, hindices⟩, hencodes.counts, hcounts⟩
    · rintro ⟨hnone, ⟨hfirst, hindices⟩, hcount, hcounts⟩
      exact ⟨⟨hnone, hfirst, hcount⟩, hindices, hcounts⟩

theorem encodes_of_overflow {call : Call} {rest : List Call}
    (h : (asm.runAll (call :: rest)).overflow = none) : call.Encodes asm.pool := by
  have hrest : ((call.run asm).runAll rest).overflow = none := h
  exact (Call.overflow_run_eq_none.mp ((overflow_runAll_eq_none rest).mp hrest).1).2

theorem Holds.runAll {code : List (InstructionOf Label)} (h : asm.Holds code)
    (hallows : asm.Allows calls) (hoverflow : (asm.runAll calls).overflow = none) :
    (asm.runAll calls).Holds (code ++ asm.written calls) := by
  induction calls generalizing asm code with
  | nil =>
    rw [written, List.append_nil]
    exact h
  | cons call rest ih =>
    obtain ⟨hproper, _, hrest⟩ := hallows
    have hstep := h.run hproper (encodes_of_overflow hoverflow)
    rw [written, ← List.append_assoc]
    exact ih hstep hrest hoverflow

theorem position?_runAll (hallows : asm.Allows calls) (label : Label) :
    (asm.runAll calls).position? label =
      (asm.boundAt label calls).or (asm.position? label) := by
  induction calls generalizing asm with
  | nil => rfl
  | cons call rest ih =>
    obtain ⟨_, hbound, hrest⟩ := hallows
    have hstep := Call.position?_run hbound label
    have htail := ih hrest
    rw [hstep] at htail
    rw [boundAt, Option.or_assoc]
    refine htail.trans (congrArg _ ?_)
    split_ifs <;> rfl

theorem regions_runAll (asm : Assembler) (calls : List Call) :
    (asm.runAll calls).regions.toList =
      asm.regions.toList ++ calls.flatMap Call.regions := by
  induction calls generalizing asm with
  | nil => simp [runAll]
  | cons call rest ih =>
    have hstep := Call.regions_run call asm
    have htail : ((call.run asm).runAll rest).regions.toList = _ := ih (call.run asm)
    rw [hstep, List.append_assoc] at htail
    rw [List.flatMap_cons]
    exact htail

/-- The labels that the calls use are targets of instructions or ends of regions. -/
theorem exists_mem_uses (asm : Assembler) (calls : List Call) (label : Label) :
    (∃ call ∈ calls, label ∈ call.uses) ↔
      (∃ instruction ∈ asm.written calls, label ∈ instruction.operand.targets) ∨
        ∃ region ∈ calls.flatMap Call.regions, label ∈ region.labels := by
  induction calls generalizing asm with
  | nil => simp [written]
  | cons call rest ih =>
    have hcons : (∃ other ∈ call :: rest, label ∈ other.uses) ↔
        label ∈ call.uses ∨ ∃ other ∈ rest, label ∈ other.uses := by simp
    rw [hcons, ih (call.run asm), Call.mem_uses asm, written, List.flatMap_cons]
    simp only [List.mem_append, or_and_right, exists_or]
    exact or_or_or_comm

/-- What it takes to finish, in terms of the calls. -/
theorem finish_runAll_isOk (h : (new pool).Allows calls) :
    (∃ code, ((new pool).runAll calls).finish = .ok code) ↔
      (∀ index ∈ pool.indices (calls.flatMap Call.constants), index < 65536) ∧
      (∀ call ∈ calls, ∀ count ∈ call.argCounts, count < 256) ∧
      (∀ call ∈ calls, ∀ label ∈ call.uses, ((new pool).boundAt label calls).isSome) ∧
      ∀ instruction ∈ (new pool).written calls, ∀ target ∈ instruction.operand.targets,
        ∀ position, (new pool).boundAt target calls = some position →
          -2147483648 ≤ (position : Int) - instruction.offset ∧
            (position : Int) - instruction.offset ≤ 2147483647 := by
  have hnew : (new pool).overflow = none := rfl
  rw [finish_isOk, overflow_runAll_eq_none, and_iff_right hnew, and_assoc]
  refine and_congr_right fun hindices => and_congr_right fun hcounts => ?_
  have hoverflow := (overflow_runAll_eq_none calls).mpr ⟨hnew, hindices, hcounts⟩
  have hholds := (holds_new pool).runAll h hoverflow
  have hposition (label : Label) : ((new pool).runAll calls).position? label =
      (new pool).boundAt label calls := by
    rw [position?_runAll h]
    exact Option.or_none
  have huses := exists_mem_uses (new pool) calls
  rw [hholds.forall_fixups, regions_runAll]
  simp only [List.nil_append, Resolvable, hposition]
  constructor
  · rintro ⟨htargets, hregions⟩
    refine ⟨fun call hcall label hlabel => ?_, fun instruction hinstr target htarget position hat => ?_⟩
    · rcases (huses label).mp ⟨call, hcall, hlabel⟩ with
        ⟨instruction, hinstr, htarget⟩ | ⟨region, hregion, hend⟩
      · obtain ⟨position, hat, _⟩ := htargets instruction hinstr label htarget
        rw [hat, Option.isSome_some]
      · exact hregions region hregion label hend
    · obtain ⟨other, hother, hrange⟩ := htargets instruction hinstr target htarget
      obtain rfl : other = position := Option.some.inj (hother.symm.trans hat)
      exact hrange
  · rintro ⟨hbound, hrange⟩
    refine ⟨fun instruction hinstr target htarget => ?_, fun region hregion label hend => ?_⟩
    · obtain ⟨call, hcall, huse⟩ := (huses target).mpr (.inl ⟨instruction, hinstr, htarget⟩)
      obtain ⟨position, hat⟩ := Option.isSome_iff_exists.mp (hbound call hcall target huse)
      exact ⟨position, hat, hrange instruction hinstr target htarget position hat⟩
    · obtain ⟨call, hcall, huse⟩ := (huses label).mpr (.inr ⟨region, hregion, hend⟩)
      exact hbound call hcall label huse

/-- Finished code consists of the instructions of the calls, with their labels
replaced by the offsets where they were bound. Code cannot be finished exactly if
some operand does not fit or some label is missing. -/
theorem finish_runAll (pool : Pool) (calls : List Call) (h : (new pool).Allows calls) :
    (∀ code, ((new pool).runAll calls).finish = .ok code →
      ∃ position : Label → Nat,
        (∀ call ∈ calls, ∀ label ∈ call.uses,
          (new pool).boundAt label calls = some (position label)) ∧
        code.chunk.instructions =
          ((new pool).written calls).map (InstructionOf.map position)) ∧
    ((∃ fault, ((new pool).runAll calls).finish = .error fault) ↔
      (∃ index ∈ pool.indices (calls.flatMap Call.constants), 65535 < index) ∨
      (∃ call ∈ calls, ∃ count ∈ call.argCounts, 255 < count) ∨
      (∃ call ∈ calls, ∃ label ∈ call.uses, (new pool).boundAt label calls = none) ∨
      ∃ instruction ∈ (new pool).written calls, ∃ target ∈ instruction.operand.targets,
        ∃ position, (new pool).boundAt target calls = some position ∧
          ((position : Int) - instruction.offset < -2147483648 ∨
            2147483647 < (position : Int) - instruction.offset)) := by
  constructor
  · intro code hcode
    obtain ⟨hoverflow, _⟩ := finish_eq_ok.mp hcode
    obtain ⟨_, _, hbound, _⟩ := (finish_runAll_isOk h).mp ⟨code, hcode⟩
    refine ⟨((new pool).runAll calls).positionOf, fun call hcall label hlabel => ?_, ?_⟩
    · obtain ⟨position, hat⟩ := Option.isSome_iff_exists.mp (hbound call hcall label hlabel)
      rw [positionOf, position?_runAll h, hat]
      rfl
    · exact (((holds_new pool).runAll h hoverflow).finish hcode).1
  · have herror : (∃ fault, ((new pool).runAll calls).finish = .error fault) ↔
        ¬ ∃ code, ((new pool).runAll calls).finish = .ok code := by
      cases ((new pool).runAll calls).finish <;> simp
    rw [herror, finish_runAll_isOk h, not_and_or, not_and_or, not_and_or]
    simp only [not_forall, exists_prop, not_lt, not_and_or, not_le,
      Option.not_isSome_iff_eq_none]
    rfl

/-- A jump over nothing: the label is bound behind the jump, at offset 6. -/
theorem finish_runAll_forward_jump :
    ∃ code, ((new .empty).runAll [.newLabel, .op .pushTrue, .jump .jumpIfFalse ⟨0⟩, .bind ⟨0⟩,
        .op .returnVoid]).finish = .ok code ∧
      code.chunk.instructions =
        [⟨0, .pushTrue, .none⟩, ⟨1, .jumpIfFalse, .jump 6⟩, ⟨6, .returnVoid, .none⟩] := by
  have hallows : (new .empty).Allows [.newLabel, .op .pushTrue, .jump .jumpIfFalse ⟨0⟩,
      .bind ⟨0⟩, .op .returnVoid] := by
    refine ⟨trivial, ?_, ⟨rfl, rfl⟩, ?_, rfl, ?_, trivial, ?_, ⟨rfl, rfl⟩, ?_, trivial⟩
    all_goals decide
  have hwritten : (new .empty).written [.newLabel, .op .pushTrue, .jump .jumpIfFalse ⟨0⟩,
      .bind ⟨0⟩, .op .returnVoid] =
        [⟨0, .pushTrue, .none⟩, ⟨1, .jumpIfFalse, .jump ⟨0⟩⟩, ⟨6, .returnVoid, .none⟩] := by
    decide
  have hbound : (new .empty).boundAt ⟨0⟩ [.newLabel, .op .pushTrue, .jump .jumpIfFalse ⟨0⟩,
      .bind ⟨0⟩, .op .returnVoid] = some 6 := by decide
  obtain ⟨hcode, herror⟩ := finish_runAll _ _ hallows
  cases hfinish : ((new .empty).runAll [.newLabel, .op .pushTrue, .jump .jumpIfFalse ⟨0⟩,
      .bind ⟨0⟩, .op .returnVoid]).finish with
  | error fault =>
    rcases herror.mp ⟨fault, hfinish⟩ with hindex | hcount | hunbound | hrange
    · exact absurd hindex (by decide)
    · exact absurd hcount (by decide)
    · exact absurd hunbound (by decide)
    · rw [hwritten] at hrange
      simp only [List.exists_mem_cons_iff, OperandOf.targets, List.not_mem_nil, false_and,
        exists_false, false_or, or_false, hbound, Option.some.injEq] at hrange
      obtain ⟨position, rfl, hfar⟩ := hrange
      omega
  | ok code =>
    obtain ⟨position, hposition, hinstructions⟩ := hcode code hfinish
    refine ⟨code, rfl, hinstructions.trans ?_⟩
    have hlabel : some 6 = some (position ⟨0⟩) := hbound.symm.trans <|
      hposition (.jump .jumpIfFalse ⟨0⟩) (by simp) ⟨0⟩ (by simp [Call.uses])
    rw [hwritten]
    simp [InstructionOf.map, OperandOf.map, ← Option.some.inj hlabel]

end Assembler

end StackLowering
