import StackLowering.Proofs.Context
import StackLowering.Proofs.SlotTable
/-!
Well-formed code. A routine consists of complete instructions, control only
goes to the start of an instruction or to the end of the code, and operands
name variables of the frame and entries of the pool. A run of calls keeps this
for the code written so far, as long as every call suits the routine.
-/

namespace StackLowering

namespace Opcode

/-- The operand names a local variable. -/
def accessesLocal : Opcode → Bool
  | getLocal | setLocal | getLocalWide | setLocalWide | incLocal => true
  | _ => false

/-- The operand names constants of the pool, all of which are digests. -/
def namesDigests : Opcode → Bool
  | invokeStatic | invokeVirtual | invokeInterface | invokeSpecial | create => true
  | op => op.takesDigest

/-- The operand names constants of the pool. -/
def readsPool : Opcode → Bool
  | constant | constantWide => true
  | op => op.namesDigests

/-- The instruction leaves the routine. -/
def isExit : Opcode → Bool
  | returnValue | returnVoid | raise => true
  | _ => false

/-- Control may go on behind the instruction. -/
def fallsThrough : Opcode → Bool
  | jump | tableSwitch | lookupSwitch | returnValue | returnVoid | raise => false
  | _ => true

end Opcode

/-- The variables or constants that an operand names. -/
def OperandOf.indices {T : Type} : OperandOf T → List UInt16
  | .byte value => [value.toUInt16]
  | .short value => [value]
  | .increment slot _ => [slot]
  | .invoke constant _ => [constant]
  | .create ty constructor _ => [ty, constructor]
  | _ => []

variable {U : Type} {output : RoutineOutput}

@[simp]
theorem OperandOf.indices_map {T : Type} (f : T → U) (operand : OperandOf T) :
    (operand.map f).indices = operand.indices := by
  cases operand <;> rfl

@[simp]
theorem OperandOf.targets_map {T : Type} (f : T → U) (operand : OperandOf T) :
    (operand.map f).targets = operand.targets.map f := by
  cases operand <;> simp [map, targets]

namespace InstructionOf

variable {T : Type}

/-- All variables that the instruction names are in the slot table. -/
def LocalsIn (table : List SlotEntry) (instruction : InstructionOf T) : Prop :=
  instruction.op.accessesLocal = true →
    ∀ slot ∈ instruction.operand.indices, ∃ entry ∈ table, entry.slot = slot

/-- All constants that the instruction names are in the pool, and are digests
where they have to be. -/
def ConstantsIn (pool : Pool) (instruction : InstructionOf T) : Prop :=
  instruction.op.readsPool = true → ∀ index ∈ instruction.operand.indices,
    ∃ constant, pool.get? index.toNat = some constant ∧
      (instruction.op.namesDigests = true → ∃ digest, constant = .digest digest)

theorem localsIn_map {f : T → U} {table : List SlotEntry} {instruction : InstructionOf T} :
    (instruction.map f).LocalsIn table ↔ instruction.LocalsIn table := by
  simp [LocalsIn, map]

theorem constantsIn_map {f : T → U} {pool : Pool} {instruction : InstructionOf T} :
    (instruction.map f).ConstantsIn pool ↔ instruction.ConstantsIn pool := by
  simp [ConstantsIn, map]

/-- Where control may go from an instruction that ends at `next`. -/
def successors (next : Nat) (instruction : Instruction) : List Nat :=
  (if instruction.op.fallsThrough then [next] else []) ++ instruction.operand.targets

end InstructionOf

namespace Chunk

/-- The chunk holds exactly these instructions from `offset` to its last byte. -/
def Reads (chunk : Chunk) : Nat → List Instruction → Prop
  | offset, [] => offset = chunk.size
  | offset, instruction :: rest =>
    ∃ next, chunk.decode? offset = some (instruction, next) ∧ chunk.Reads next rest

/-- An instruction starts at the offset. -/
def StartsAt (chunk : Chunk) (offset : Nat) : Prop :=
  ∃ instruction ∈ chunk.instructions, instruction.offset = offset

/-- An instruction starts at the offset, or the code ends there. -/
def IsBoundary (chunk : Chunk) (offset : Nat) : Prop :=
  chunk.StartsAt offset ∨ offset = chunk.size

end Chunk

namespace Routine

/-- The code of a routine is well-formed with respect to a pool. -/
structure WellFormed (pool : Pool) (routine : Routine) : Prop where
  reads : routine.code.chunk.Reads 0 routine.code.chunk.instructions
  targets : ∀ instruction ∈ routine.code.chunk.instructions,
    ∀ target ∈ instruction.operand.targets, routine.code.chunk.IsBoundary target
  exceptions : ∀ entry ∈ routine.code.exceptions, routine.code.chunk.IsBoundary entry.start ∧
    routine.code.chunk.IsBoundary entry.stop ∧ routine.code.chunk.IsBoundary entry.handler
  locals : ∀ instruction ∈ routine.code.chunk.instructions, instruction.LocalsIn routine.slots
  frame : ∀ entry ∈ routine.slots, entry.slot.toNat < routine.frameSize
  constants : ∀ instruction ∈ routine.code.chunk.instructions, instruction.ConstantsIn pool

/-- Control cannot run off the end of the code. -/
structure Closed (routine : Routine) : Prop where
  nonempty : 0 < routine.code.chunk.size
  last : ∃ instruction, routine.code.chunk.instructions.getLast? = some instruction ∧
    instruction.op.isExit = true
  targets : ∀ instruction ∈ routine.code.chunk.instructions,
    ∀ target ∈ instruction.operand.targets, target < routine.code.chunk.size
  handlers : ∀ entry ∈ routine.code.exceptions, entry.handler < routine.code.chunk.size
  flow : ∀ instruction ∈ routine.code.chunk.instructions, ∀ next,
    routine.code.chunk.decode? instruction.offset = some (instruction, next) →
      ∀ successor ∈ instruction.successors next, routine.code.chunk.StartsAt successor

/-- The routine is the lowered form of a declaration, with well-formed code. -/
structure Implements (pool : Pool) (decl : RoutineDecl) (routine : Routine) : Prop where
  owner : routine.owner = decl.owner
  name : routine.name = decl.name
  descriptor : routine.descriptor = decl.descriptor
  code : routine.WellFormed pool
  closed : decl.result.isVoid = true → routine.Closed

end Routine

namespace Pool

/-- Entries keep their indices. -/
def Extends (pool larger : Pool) : Prop :=
  ∀ index constant, pool.get? index = some constant → larger.get? index = some constant

theorem Extends.refl (pool : Pool) : pool.Extends pool := fun _ _ h => h

theorem Extends.trans {pool middle larger : Pool} (h : pool.Extends middle)
    (h' : middle.Extends larger) : pool.Extends larger :=
  fun index constant hget => h' index constant (h index constant hget)

theorem extends_add (pool : Pool) (constant : Constant) : pool.Extends (pool.add constant).2 :=
  fun _ _ h => get?_add_of_some h constant

theorem extends_addAll (pool : Pool) (constants : List Constant) :
    pool.Extends (pool.addAll constants) := by
  induction constants generalizing pool with
  | nil => exact .refl pool
  | cons constant rest ih => exact (pool.extends_add constant).trans (ih _)

end Pool

section Extends

variable {pool larger : Pool}

theorem InstructionOf.ConstantsIn.extend {T : Type} {instruction : InstructionOf T}
    (h : instruction.ConstantsIn pool) (hpool : pool.Extends larger) :
    instruction.ConstantsIn larger := by
  intro hreads index hindex
  obtain ⟨constant, hget, hdigest⟩ := h hreads index hindex
  exact ⟨constant, hpool _ _ hget, hdigest⟩

theorem Routine.Implements.extend {decl : RoutineDecl} {routine : Routine}
    (h : routine.Implements pool decl) (hpool : pool.Extends larger) :
    routine.Implements larger decl := by
  refine ⟨h.owner, h.name, h.descriptor, ?_, h.closed⟩
  exact ⟨h.code.reads, h.code.targets, h.code.exceptions, h.code.locals, h.code.frame,
    fun instruction hmem => (h.code.constants instruction hmem).extend hpool⟩

end Extends

namespace Call

/-- The call suits a routine with these slots. Operands that name variables or
constants are written by their own emitters only. -/
def Sound (slots : Slots) : Call → Prop
  | .opByte _ _ | .opU16 _ _ => False
  | .getLocal slot | .setLocal slot | .incLocal slot _ => slots.Lists slot
  | call => call.Proper

/-- The call suits some routine. -/
def Regular : Call → Prop
  | .opByte _ _ | .opU16 _ _ => False
  | call => call.Proper

/-- The call leaves the routine. -/
def isExit : Call → Bool
  | .op .returnVoid | .op .raise | .ret _ => true
  | _ => false

variable {slots : Slots} {pool : Pool} {call : Call} {emission : Opcode × OperandOf Label}

theorem Sound.regular (h : call.Sound slots) : call.Regular := by
  cases call with
  | opByte code byte | opU16 code word => exact h.elim
  | getLocal slot | setLocal slot | incLocal slot delta => trivial
  | _ => exact h

theorem Regular.proper (h : call.Regular) : call.Proper := by
  cases call with
  | opByte code byte | opU16 code word => exact h.elim
  | _ => exact h

theorem Sound.proper (h : call.Sound slots) : call.Proper := h.regular.proper

theorem sound_of_isExit (h : call.isExit = true) (slots : Slots) : call.Sound slots := by
  unfold isExit at h
  split at h
  · exact ⟨rfl, rfl⟩
  · exact ⟨rfl, rfl⟩
  · trivial
  · cases h

theorem isExit_instruction? (h : call.isExit = true) (pool : Pool) :
    ∃ op, call.instruction? pool = some (op, .none) ∧ op.isExit = true := by
  unfold isExit at h
  split at h
  · exact ⟨.returnVoid, rfl, rfl⟩
  · exact ⟨.raise, rfl, rfl⟩
  · rename_i ty
    refine ⟨_, rfl, ?_⟩
    split_ifs <;> rfl
  · cases h

theorem indices_accessLocal (narrow wide : Opcode) (slot : UInt16) :
    (accessLocal narrow wide slot).2.indices = [slot] := by
  rw [accessLocal]
  split_ifs with hslot
  · have hlt : slot.toNat < 256 := UInt16.lt_iff_toNat_lt.mp hslot
    refine congrArg (· :: []) (UInt16.toNat_inj.mp ?_)
    rw [UInt8.toNat_toUInt16, UInt16.toNat_toUInt8]
    omega
  · rfl

theorem readsPool_accessLocal (narrow wide : Opcode) (hnarrow : narrow.readsPool = false)
    (hwide : wide.readsPool = false) (slot : UInt16) :
    (accessLocal narrow wide slot).1.readsPool = false := by
  rw [accessLocal]
  split_ifs
  · exact hnarrow
  · exact hwide

theorem indices_loadConstant {index : Nat} (h : index < 65536) :
    (loadConstant index).2.indices = [UInt16.ofNat index] := by
  rw [loadConstant]
  split_ifs with hindex
  · refine congrArg (· :: []) (UInt16.toNat_inj.mp ?_)
    rw [UInt8.toNat_toUInt16, UInt8.toNat_ofNat', UInt16.toNat_ofNat']
    omega
  · rfl

theorem op_loadConstant (index : Nat) :
    (loadConstant index).1.accessesLocal = false ∧ (loadConstant index).1.namesDigests = false := by
  rw [loadConstant]
  split_ifs <;> exact ⟨rfl, rfl⟩

/-- A sound call names variables of the routine. -/
theorem Sound.localsIn (h : call.Sound slots) (hinstr : call.instruction? pool = some emission)
    (offset : Nat) :
    (⟨offset, emission.1, emission.2⟩ : InstructionOf Label).LocalsIn slots.table.toList := by
  intro haccess slot hslot
  cases h.proper.writes hinstr with
  | getLocal | setLocal =>
    dsimp only at hslot
    rw [indices_accessLocal, List.mem_singleton] at hslot
    exact hslot ▸ h
  | incLocal => exact List.mem_singleton.mp hslot ▸ h
  | constant =>
    rw [(op_loadConstant _).1] at haccess
    cases haccess
  | @digest op hop =>
    cases op <;> simp [Opcode.takesDigest, Opcode.accessesLocal] at hop haccess
  | invoke kind => cases kind <;> cases haccess
  | create => cases haccess
  | byte | short => exact h.elim
  | bare | jump | tableSwitch | lookupSwitch => cases hslot

theorem constantsIn_of_get? {index : Nat} {constant : Constant} {op : Opcode}
    {operand : OperandOf Label} (hlt : index < 65536)
    (hget : pool.get? index = some constant) (hindices : operand.indices = [UInt16.ofNat index])
    (hdigest : op.namesDigests = true → ∃ digest, constant = .digest digest) (offset : Nat) :
    (⟨offset, op, operand⟩ : InstructionOf Label).ConstantsIn pool := by
  intro _ other hmem
  rw [hindices, List.mem_singleton] at hmem
  rw [hmem, UInt16.toNat_ofNat_of_lt' hlt]
  exact ⟨constant, hget, hdigest⟩

/-- A sound call names constants that are in the pool afterwards. -/
theorem Sound.constantsIn (h : call.Sound slots) (hencodes : call.Encodes pool)
    (hinstr : call.instruction? pool = some emission) (offset : Nat) :
    (⟨offset, emission.1, emission.2⟩ : InstructionOf Label).ConstantsIn
      (pool.addAll call.constants) := by
  cases h.proper.writes hinstr with
  | @constant _ value hconstants =>
    have hfits := hencodes.indices
    rw [hconstants] at hfits ⊢
    have hlt : (pool.add value).1 < 65536 := hfits _ List.mem_cons_self
    refine constantsIn_of_get? hlt (pool.get?_add _) (indices_loadConstant hlt) ?_ offset
    rw [(op_loadConstant _).2]
    intro hnames
    cases hnames
  | digest | invoke =>
    have hlt := hencodes.indices _ List.mem_cons_self
    exact constantsIn_of_get? hlt (pool.get?_add _) rfl (fun _ => ⟨_, rfl⟩) offset
  | create ty constructor =>
    have htype : (pool.add (.digest ty)).1 < 65536 := hencodes.indices _ List.mem_cons_self
    have hconstructor : ((pool.add (.digest ty)).2.add (.digest constructor)).1 < 65536 :=
      hencodes.indices _ (List.mem_cons_of_mem _ List.mem_cons_self)
    intro _ index hmem
    simp only [OperandOf.indices, List.mem_cons, List.not_mem_nil, or_false] at hmem
    rcases hmem with rfl | rfl
    · rw [UInt16.toNat_ofNat_of_lt' htype]
      exact ⟨_, Pool.extends_add _ _ _ _ (pool.get?_add _), fun _ => ⟨ty, rfl⟩⟩
    · rw [UInt16.toNat_ofNat_of_lt' hconstructor]
      exact ⟨_, Pool.get?_add _ _, fun _ => ⟨constructor, rfl⟩⟩
  | getLocal slot | setLocal slot =>
    intro hreads
    rw [readsPool_accessLocal _ _ rfl rfl slot] at hreads
    cases hreads
  | incLocal =>
    intro hreads
    cases hreads
  | byte | short => exact h.elim
  | bare | jump | tableSwitch | lookupSwitch =>
    simp [InstructionOf.ConstantsIn, OperandOf.indices]

end Call

/-- Labels are only ever bound to the current offset. -/
theorem Call.position?_of_run {call : Call} {asm : Assembler} {label : Label} {position : Nat}
    (h : (call.run asm).position? label = some position) :
    asm.position? label = some position ∨ position = asm.offset := by
  by_cases hbound : ∀ bound ∈ call.bound?, bound.id < asm.positions.size
  · rw [Call.position?_run hbound] at h
    split_ifs at h
    · exact .inr (Option.some.inj h).symm
    · exact .inl h
  · push Not at hbound
    obtain ⟨bound, hmem, hsize⟩ := hbound
    cases call with
    | bind other =>
      obtain rfl : other = bound := Option.some.inj hmem
      refine .inl ?_
      rw [Call.run, Assembler.bind, Array.setIfInBounds_eq_of_size_le hsize] at h
      exact h
    | _ => cases hmem

namespace Assembler.Holds

variable {asm : Assembler} {code : List (InstructionOf Label)}

theorem offset_le (h : asm.Holds code) {instruction : InstructionOf Label}
    (hmem : instruction ∈ code) : instruction.offset ≤ asm.offset := by
  obtain ⟨before, after, rfl⟩ := List.append_of_mem hmem
  obtain ⟨_, hoffset, _⟩ := tiles_append.mp h.tiles
  rw [h.offset_eq, hoffset]
  simp [sizeAll]

theorem startsAt_next (h : asm.Holds code) {instruction : InstructionOf Label}
    (hmem : instruction ∈ code) :
    (∃ next ∈ code, next.offset = instruction.offset + instruction.size) ∨
      code.getLast? = some instruction := by
  obtain ⟨before, after, rfl⟩ := List.append_of_mem hmem
  obtain ⟨_, hoffset, hafter⟩ := tiles_append.mp h.tiles
  cases after with
  | nil => exact .inr (by simp)
  | cons next rest =>
    refine .inl ⟨next, by simp, ?_⟩
    rw [hafter.1, hoffset]

end Assembler.Holds

/-- An instruction starts at the position, or the code ends there. -/
def Boundary (code : List (InstructionOf Label)) (position : Nat) : Prop :=
  (∃ instruction ∈ code, instruction.offset = position) ∨ position = sizeAll code

theorem Boundary.append {code written : List (InstructionOf Label)} {position : Nat}
    (h : Boundary code position) (htiles : Tiles 0 (code ++ written)) :
    Boundary (code ++ written) position := by
  rcases h with ⟨instruction, hmem, hoffset⟩ | rfl
  · exact .inl ⟨instruction, List.mem_append_left _ hmem, hoffset⟩
  · cases written with
    | nil => exact .inr (by rw [List.append_nil])
    | cons instruction rest =>
      obtain ⟨_, hoffset, _⟩ := tiles_append.mp htiles
      rw [Nat.zero_add] at hoffset
      exact .inl ⟨instruction, List.mem_append_right _ List.mem_cons_self, hoffset⟩

namespace State

/-- The code of a routine so far, with all that its operands name. -/
structure Emitted (s : State) (code : List (InstructionOf Label)) : Prop where
  holds : s.assembler.Holds code
  positions : ∀ label position, s.assembler.position? label = some position →
    Boundary code position
  slots : s.slots.Valid
  locals : ∀ instruction ∈ code, instruction.LocalsIn s.slots.table.toList
  constants : ∀ instruction ∈ code, instruction.ConstantsIn s.assembler.pool
  routines : ∀ routine ∈ s.localRoutines, ∃ decl, routine.Implements s.assembler.pool decl

variable {s m s' : State} {code : List (InstructionOf Label)}

theorem emitted_initial (nest : Nest) (shared : Shared) (info : RoutineInfo) :
    (initial nest shared info).Emitted [] where
  holds := Assembler.holds_new shared.pool
  positions := by simp [initial, Assembler.new, Assembler.position?]
  slots := Slots.valid_empty
  locals := by simp
  constants := by simp
  routines := by simp [initial]

/-- A sound call whose operands fit appends its instruction. -/
theorem Emitted.emits {call : Call} (h : s.Emitted code) (hsound : call.Sound s.slots)
    (hencodes : call.Encodes s.assembler.pool) :
    (s.emits call).Emitted (code ++ call.written s.assembler) := by
  have hholds := h.holds.run hsound.proper hencodes
  have hwritten : ∀ instruction ∈ call.written s.assembler,
      call.instruction? s.assembler.pool = some (instruction.op, instruction.operand) := by
    intro instruction hmem
    rw [Call.written, Option.mem_toList] at hmem
    obtain ⟨emission, hemission, rfl⟩ := Option.map_eq_some_iff.mp hmem
    exact hemission
  have hpool : s.assembler.pool.Extends (s.emits call).assembler.pool := by
    have hrun : (s.emits call).assembler.pool = s.assembler.pool.addAll call.constants :=
      Call.pool_run call s.assembler
    rw [hrun]
    exact Pool.extends_addAll _ _
  refine ⟨hholds, fun label position hposition => ?_, h.slots, ?_, ?_, fun routine hmem => ?_⟩
  · rcases Call.position?_of_run hposition with hold | rfl
    · exact (h.positions label position hold).append hholds.tiles
    · exact Boundary.append (.inr h.holds.offset_eq) hholds.tiles
  · refine List.forall_mem_append.mpr ⟨h.locals, fun instruction hmem => ?_⟩
    exact hsound.localsIn (hwritten instruction hmem) instruction.offset
  · refine List.forall_mem_append.mpr
      ⟨fun instruction hmem => (h.constants instruction hmem).extend hpool, fun instruction hmem => ?_⟩
    have hconstants := hsound.constantsIn hencodes (hwritten instruction hmem) instruction.offset
    rw [← Call.pool_run] at hconstants
    exact hconstants
  · obtain ⟨decl, himplements⟩ := h.routines routine hmem
    exact ⟨decl, himplements.extend hpool⟩

/-- The part of a state that belongs to the routine; the rest is the context. -/
def core (s : State) : Assembler × Slots × List Routine :=
  (s.assembler, s.slots, s.localRoutines)

/-- What lowering does to a state, step by step; `true` if the last of it is an
instruction that leaves the routine. -/
inductive Steps : Bool → State → State → Prop
  | refl (s : State) : Steps false s s
  | emits {closed : Bool} {s m : State} {call : Call} (h : Steps closed s m)
      (hsound : call.Sound m.slots) : Steps false s (m.emits call)
  | exits {closed : Bool} {s m : State} {call : Call} (h : Steps closed s m)
      (hexit : call.isExit = true) : Steps true s (m.emits call)
  | slots {closed : Bool} {s m : State} {slots : Slots} (h : Steps closed s m)
      (hstep : Slots.Step m.slots slots) : Steps closed s (m.withSlots slots)
  | context {closed : Bool} {s m s' : State} (h : Steps closed s m) (hcore : s'.core = m.core) :
      Steps closed s s'
  /-- Other routines are lowered, with the same pool. -/
  | routines {closed : Bool} {s m : State} {shared : Shared} {routines : List Routine}
      (h : Steps closed s m) (hpool : m.assembler.pool.Extends shared.pool)
      (hroutines : ∀ routine ∈ routines, ∃ decl, routine.Implements shared.pool decl) :
      Steps closed s { m.withShared shared with localRoutines := m.localRoutines ++ routines }
  | forget {closed : Bool} {s m : State} (h : Steps closed s m) : Steps false s m

namespace Steps

variable {closed closed' : Bool}

theorem trans (h : Steps closed s m) (h' : Steps closed' m s') : Steps closed' s s' := by
  induction h' with
  | refl => exact h.forget
  | emits _ hsound ih => exact (ih h).emits hsound
  | exits _ hexit ih => exact (ih h).exits hexit
  | slots _ hstep ih => exact (ih h).slots hstep
  | context _ hcore ih => exact (ih h).context hcore
  | routines _ hpool hroutines ih => exact (ih h).routines hpool hroutines
  | forget _ ih => exact (ih h).forget

theorem valid (h : Steps closed s s') (hvalid : s.slots.Valid) : s'.slots.Valid := by
  induction h with
  | refl => exact hvalid
  | emits _ _ ih | exits _ _ ih | routines _ _ _ ih | forget _ ih => exact ih hvalid
  | slots _ hstep ih => exact hstep.valid (ih hvalid)
  | context _ hcore ih => exact (Prod.mk.inj (Prod.mk.inj hcore).2).1 ▸ ih hvalid

theorem lists (h : Steps closed s s') {slot : UInt16} (hslot : s.slots.Lists slot) :
    s'.slots.Lists slot := by
  induction h with
  | refl => exact hslot
  | emits _ _ ih | exits _ _ ih | routines _ _ _ ih | forget _ ih => exact ih hslot
  | slots _ hstep ih => exact hstep.lists (ih hslot)
  | context _ hcore ih => exact (Prod.mk.inj (Prod.mk.inj hcore).2).1 ▸ ih hslot

theorem extends_pool (h : Steps closed s s') : s.assembler.pool.Extends s'.assembler.pool := by
  induction h with
  | refl s => exact .refl _
  | emits _ _ ih | exits _ _ ih =>
    refine ih.trans ?_
    rw [State.emits, State.onAssembler, Call.pool_run]
    exact Pool.extends_addAll _ _
  | slots _ _ ih | forget _ ih => exact ih
  | context _ hcore ih => exact (Prod.mk.inj hcore).1 ▸ ih
  | routines _ hpool _ ih => exact ih.trans hpool

theorem overflow (h : Steps closed s s') (hnone : s'.assembler.overflow = none) :
    s.assembler.overflow = none := by
  induction h with
  | refl => exact hnone
  | emits _ _ ih | exits _ _ ih => exact ih (Call.overflow_run_eq_none.mp hnone).1
  | slots _ _ ih | routines _ _ _ ih | forget _ ih => exact ih hnone
  | context _ hcore ih => exact ih ((Prod.mk.inj hcore).1 ▸ hnone)

end Steps

/-- The code ends with an instruction that leaves the routine, and nothing leads
behind it. -/
structure Ends (s : State) (code : List (InstructionOf Label)) : Prop where
  last : ∃ instruction, code.getLast? = some instruction ∧ instruction.op.isExit = true
  positions : ∀ label position, s.assembler.position? label = some position →
    position < s.assembler.offset

/-- Steps keep the code well-formed and only append to it. -/
theorem Steps.emitted {closed : Bool} (h : Steps closed s s') (hemitted : s.Emitted code)
    (hoverflow : s'.assembler.overflow = none) :
    ∃ code', s'.Emitted code' ∧ (closed = true → s'.Ends code') := by
  induction h with
  | refl => exact ⟨code, hemitted, nofun⟩
  | emits hsteps hsound ih =>
    obtain ⟨hbefore, hencodes⟩ := Call.overflow_run_eq_none.mp hoverflow
    obtain ⟨code', hcode, _⟩ := ih hemitted hbefore
    exact ⟨_, hcode.emits hsound hencodes, nofun⟩
  | @exits _ s m call hsteps hexit ih =>
    obtain ⟨hbefore, hencodes⟩ := Call.overflow_run_eq_none.mp hoverflow
    obtain ⟨code', hcode, _⟩ := ih hemitted hbefore
    have hafter := hcode.emits (Call.sound_of_isExit hexit m.slots) hencodes
    obtain ⟨op, hinstr, hop⟩ := Call.isExit_instruction? hexit m.assembler.pool
    have hwritten : call.written m.assembler = [⟨m.assembler.offset, op, .none⟩] := by
      rw [Call.written, hinstr]
      rfl
    refine ⟨_, hafter, fun _ =>
      ⟨⟨⟨m.assembler.offset, op, .none⟩, ?_, hop⟩, fun label position hposition => ?_⟩⟩
    · rw [hwritten, List.getLast?_append]
      rfl
    · have hgrows : m.assembler.offset < (m.emits call).assembler.offset := by
        have hsize := hafter.holds.offset_eq
        rw [hwritten] at hsize
        rw [hsize, hcode.holds.offset_eq]
        simp [sizeAll, InstructionOf.size_pos]
      rcases Call.position?_of_run hposition with hold | rfl
      · rcases hcode.positions label position hold with ⟨instruction, hmem, rfl⟩ | rfl
        · exact (hcode.holds.offset_le hmem).trans_lt hgrows
        · rwa [← hcode.holds.offset_eq]
      · exact hgrows
  | slots hsteps hstep ih =>
    obtain ⟨code', hcode, hends⟩ := ih hemitted hoverflow
    refine ⟨code', { hcode with slots := hstep.valid hcode.slots, locals := ?_ }, fun hclosed =>
      ⟨(hends hclosed).last, (hends hclosed).positions⟩⟩
    intro instruction hmem haccess slot hslot
    exact hstep.lists (hcode.locals instruction hmem haccess slot hslot)
  | context hsteps hcore ih =>
    obtain ⟨hassembler, hrest⟩ := Prod.mk.inj hcore
    obtain ⟨hslots, hroutines⟩ := Prod.mk.inj hrest
    rw [hassembler] at hoverflow
    obtain ⟨code', hcode, hends⟩ := ih hemitted hoverflow
    refine ⟨code', ⟨?_, ?_, ?_, ?_, ?_, ?_⟩, fun hclosed => ⟨(hends hclosed).last, ?_⟩⟩
    · exact hassembler ▸ hcode.holds
    · exact hassembler ▸ hcode.positions
    · exact hslots ▸ hcode.slots
    · exact hslots ▸ hcode.locals
    · exact hassembler ▸ hcode.constants
    · exact hassembler ▸ hroutines ▸ hcode.routines
    · exact hassembler ▸ (hends hclosed).positions
  | routines hsteps hpool hroutines ih =>
    obtain ⟨code', hcode, hends⟩ := ih hemitted hoverflow
    refine ⟨code', ⟨hcode.holds.congr rfl rfl, hcode.positions, hcode.slots, hcode.locals, ?_, ?_⟩,
      fun hclosed => ⟨(hends hclosed).last, (hends hclosed).positions⟩⟩
    · exact fun instruction hmem => (hcode.constants instruction hmem).extend hpool
    · refine List.forall_mem_append.mpr ⟨fun routine hmem => ?_, hroutines⟩
      obtain ⟨decl, himplements⟩ := hcode.routines routine hmem
      exact ⟨decl, himplements.extend hpool⟩
  | forget hsteps ih =>
    obtain ⟨code', hcode, _⟩ := ih hemitted hoverflow
    exact ⟨code', hcode, nofun⟩

end State

theorem Chunk.reads_of_tiles {chunk : Chunk} {position : Label → Nat} {start : Nat}
    {code : List (InstructionOf Label)} (htiles : Tiles start code)
    (hdecode : ∀ instruction ∈ code, chunk.decode? instruction.offset =
      some (instruction.map position, instruction.offset + instruction.size))
    (hend : start + sizeAll code = chunk.size) :
    chunk.Reads start (code.map (InstructionOf.map position)) := by
  induction code generalizing start with
  | nil => simpa [sizeAll, Reads] using hend
  | cons instruction rest ih =>
    obtain ⟨rfl, hrest⟩ := htiles
    refine ⟨_, hdecode instruction List.mem_cons_self, ih hrest ?_ ?_⟩
    · exact fun other hmem => hdecode other (List.mem_cons_of_mem _ hmem)
    · simpa [sizeAll, Nat.add_assoc] using hend

namespace State.Emitted

variable {s : State} {code : List (InstructionOf Label)} {final : Code}

theorem isBoundary (h : s.Emitted code) (hfinish : s.assembler.finish = .ok final) {label : Label}
    {position : Nat} (hposition : s.assembler.position? label = some position) :
    final.chunk.IsBoundary position := by
  obtain ⟨hread, _, _, hsize⟩ := h.holds.finish hfinish
  rcases h.positions label position hposition with ⟨instruction, hmem, hoffset⟩ | rfl
  · refine .inl ⟨instruction.map s.assembler.positionOf, ?_, hoffset⟩
    rw [hread]
    exact List.mem_map_of_mem hmem
  · exact .inr (by rw [hsize, h.holds.offset_eq])

theorem exists_position (h : s.Emitted code) (hfinish : s.assembler.finish = .ok final)
    {instruction : Instruction} (hinstr : instruction ∈ final.chunk.instructions) {target : Nat}
    (htarget : target ∈ instruction.operand.targets) :
    ∃ label, s.assembler.position? label = some target := by
  obtain ⟨hread, _, hresolvable, _⟩ := h.holds.finish hfinish
  rw [hread] at hinstr
  obtain ⟨written, hwritten, rfl⟩ := List.mem_map.mp hinstr
  rw [InstructionOf.map, OperandOf.targets_map] at htarget
  obtain ⟨label, hlabel, rfl⟩ := List.mem_map.mp htarget
  obtain ⟨position, hposition, _⟩ := hresolvable written hwritten label hlabel
  exact ⟨label, by rw [Assembler.positionOf, hposition, Option.getD_some]⟩

theorem exists_positions (hfinish : s.assembler.finish = .ok final) {entry : ExceptionEntry}
    (hentry : entry ∈ final.exceptions) :
    (∃ label, s.assembler.position? label = some entry.start) ∧
      (∃ label, s.assembler.position? label = some entry.stop) ∧
        ∃ label, s.assembler.position? label = some entry.handler := by
  obtain ⟨_, chunk, entries, _, hentries, rfl⟩ := Assembler.finish_eq_ok.mp hfinish
  obtain ⟨found, hfound, rfl⟩ := List.mem_filterMap.mp hentry
  obtain ⟨region, _, hstart, hstop, hhandler, _⟩ := Assembler.mem_exceptions hentries hfound
  exact ⟨⟨_, hstart⟩, ⟨_, hstop⟩, ⟨_, hhandler⟩⟩

/-- Finished code is well-formed. -/
theorem wellFormed (h : s.Emitted code) (hfinish : s.finish = .ok output) (decl : RoutineDecl) :
    (Lowering.assembleRoutine decl output).1.WellFormed s.assembler.pool := by
  obtain ⟨final, hfinal, houtput⟩ := bind_eq_ok.mp hfinish
  obtain rfl := Except.ok.inj houtput
  obtain ⟨hread, hdecode, _, hsize⟩ := h.holds.finish hfinal
  constructor
  case reads =>
    refine hread ▸ Chunk.reads_of_tiles h.holds.tiles hdecode ?_
    rw [Nat.zero_add, ← h.holds.offset_eq]
    exact hsize.symm
  case targets =>
    intro instruction hinstr target htarget
    obtain ⟨label, hposition⟩ := h.exists_position hfinal hinstr htarget
    exact h.isBoundary hfinal hposition
  case exceptions =>
    intro entry hentry
    obtain ⟨⟨_, hstart⟩, ⟨_, hstop⟩, ⟨_, hhandler⟩⟩ := exists_positions hfinal hentry
    exact ⟨h.isBoundary hfinal hstart, h.isBoundary hfinal hstop, h.isBoundary hfinal hhandler⟩
  case locals =>
    intro instruction hinstr
    obtain ⟨written, hwritten, rfl⟩ := List.mem_map.mp (hread ▸ hinstr)
    exact InstructionOf.localsIn_map.mpr (h.locals written hwritten)
  case frame => exact fun entry hentry => h.slots.frame entry.slot ⟨entry, hentry, rfl⟩
  case constants =>
    intro instruction hinstr
    obtain ⟨written, hwritten, rfl⟩ := List.mem_map.mp (hread ▸ hinstr)
    exact InstructionOf.constantsIn_map.mpr (h.constants written hwritten)

/-- Control does not run off the end of code that ends by leaving the routine. -/
theorem closed (h : s.Emitted code) (hends : s.Ends code) (hfinish : s.finish = .ok output)
    (decl : RoutineDecl) :
    (Lowering.assembleRoutine decl output).1.Closed := by
  obtain ⟨final, hfinal, houtput⟩ := bind_eq_ok.mp hfinish
  obtain rfl := Except.ok.inj houtput
  obtain ⟨hread, hdecode, _, hsize⟩ := h.holds.finish hfinal
  obtain ⟨last, hlast, hexit⟩ := hends.last
  have hinside {label : Label} {position : Nat}
      (hposition : s.assembler.position? label = some position) :
      final.chunk.StartsAt position ∧ position < final.chunk.size := by
    have hlt : position < final.chunk.size := hsize ▸ hends.positions label position hposition
    rcases h.isBoundary hfinal hposition with hstarts | rfl
    · exact ⟨hstarts, hlt⟩
    · exact (Nat.lt_irrefl _ hlt).elim
  constructor
  case nonempty =>
    have hmem := List.mem_of_getLast? hlast
    have hlength := length_le_sizeAll code
    have hpos := List.length_pos_of_mem hmem
    have hoffset := h.holds.offset_eq
    change 0 < final.chunk.size
    omega
  case last =>
    refine ⟨last.map s.assembler.positionOf, ?_, hexit⟩
    change final.chunk.instructions.getLast? = _
    rw [hread, List.getLast?_map, hlast]
    rfl
  case targets =>
    intro instruction hinstr target htarget
    obtain ⟨label, hposition⟩ := h.exists_position hfinal hinstr htarget
    exact (hinside hposition).2
  case handlers =>
    intro entry hentry
    obtain ⟨_, _, _, hhandler⟩ := exists_positions hfinal hentry
    exact (hinside hhandler).2
  case flow =>
    intro instruction hinstr next hnext successor hsuccessor
    rcases List.mem_append.mp hsuccessor with hfall | htarget
    · obtain ⟨written, hwritten, rfl⟩ := List.mem_map.mp (hread ▸ hinstr)
      have hat := (hdecode written hwritten).symm.trans hnext
      obtain ⟨_, rfl⟩ := Prod.mk.inj (Option.some.inj hat)
      split_ifs at hfall with hfalls
      · rw [List.mem_singleton.mp hfall]
        rcases h.holds.startsAt_next hwritten with ⟨following, hmem, hoffset⟩ | hislast
        · refine ⟨following.map s.assembler.positionOf, ?_, hoffset⟩
          change _ ∈ final.chunk.instructions
          rw [hread]
          exact List.mem_map_of_mem hmem
        · obtain rfl : last = written := Option.some.inj (hlast.symm.trans hislast)
          have hop : last.op.fallsThrough = true := hfalls
          cases hcode : last.op <;> rw [hcode] at hop hexit <;> cases hop <;> cases hexit
      · cases hfall
    · obtain ⟨label, hposition⟩ := h.exists_position hfinal hinstr htarget
      exact (hinside hposition).1

end State.Emitted

/-- Steps from the start of a routine lead to well-formed code. -/
theorem State.Steps.implements {closed : Bool} {nest : Nest} {shared : Shared} {t : State}
    {decl : RoutineDecl} (h : Steps closed (.initial nest shared decl.info) t)
    (hclosed : decl.result.isVoid = true → closed = true) (hfinish : t.finish = .ok output) :
    (Lowering.assembleRoutine decl output).1.Implements t.assembler.pool decl ∧
      ∀ routine ∈ output.localRoutines, ∃ decl, routine.Implements t.assembler.pool decl := by
  obtain ⟨final, hfinal, houtput⟩ := bind_eq_ok.mp hfinish
  obtain ⟨hoverflow, _⟩ := Assembler.finish_eq_ok.mp hfinal
  obtain ⟨code, hcode, hends⟩ := h.emitted (emitted_initial nest shared decl.info) hoverflow
  refine ⟨⟨rfl, rfl, rfl, hcode.wellFormed hfinish decl, fun hvoid => ?_⟩, ?_⟩
  · exact hcode.closed (hends (hclosed hvoid)) hfinish decl
  · obtain rfl := Except.ok.inj houtput
    exact hcode.routines

end StackLowering
