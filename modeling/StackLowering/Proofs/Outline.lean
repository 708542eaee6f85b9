import StackLowering.Proofs.Dispatch
import StackLowering.Proofs.WellFormed
/-!
Code up to the numbering of its constants. The index of a constant depends on
what the pool held before, and with it the size of the instruction that loads
the constant. The outline of code leaves both out: it holds the constants
themselves, and counts positions in instructions. Code that is written by the
same calls has the same outline, whatever the pool was.
-/

namespace StackLowering

/-- A load of a constant is the same instruction in both sizes. -/
def Opcode.unsized : Opcode → Opcode
  | constantWide => constant
  | op => op

/-- The operand without the constants that it names. -/
def OperandOf.anonymous {T : Type} : OperandOf T → OperandOf T
  | .byte _ | .short _ => .none
  | .invoke _ argCount => .invoke 0 argCount
  | .create _ _ argCount => .create 0 0 argCount
  | operand => operand

/-- Replace the targets, all of which need a new form. -/
def OperandOf.relabel? {T U : Type} (f : T → Option U) : OperandOf T → Option (OperandOf U)
  | .none => some .none
  | .byte value => some (.byte value)
  | .short value => some (.short value)
  | .increment slot delta => some (.increment slot delta)
  | .invoke constant argCount => some (.invoke constant argCount)
  | .create ty constructor argCount => some (.create ty constructor argCount)
  | .jump target => (f target).map .jump
  | .table otherwise low high targets => do
    return .table (← f otherwise) low high (← targets.mapM f)
  | .lookup otherwise pairs => do
    return .lookup (← f otherwise) (← pairs.mapM fun pair => (f pair.2).map fun target =>
      (pair.1, target))

/-- An instruction that holds its constants, wherever it lies. -/
structure SymbolicOf (T : Type) where
  op : Opcode
  constants : List Constant
  operand : OperandOf T
deriving DecidableEq

def SymbolicOf.map {T U : Type} (f : T → U) (symbolic : SymbolicOf T) : SymbolicOf U :=
  ⟨symbolic.op, symbolic.constants, symbolic.operand.map f⟩

def SymbolicOf.relabel? {T U : Type} (f : T → Option U) (symbolic : SymbolicOf T) :
    Option (SymbolicOf U) :=
  (symbolic.operand.relabel? f).map fun operand => ⟨symbolic.op, symbolic.constants, operand⟩

/-- The instruction with its constants taken from the pool. -/
def InstructionOf.symbolic? {T : Type} (pool : Pool) (instruction : InstructionOf T) :
    Option (SymbolicOf T) :=
  if instruction.op.readsPool then
    (instruction.operand.indices.mapM fun index => pool.get? index.toNat).map fun constants =>
      ⟨instruction.op.unsized, constants, instruction.operand.anonymous⟩
  else some ⟨instruction.op, [], instruction.operand⟩

def ExceptionEntry.relabel? (f : Nat → Option Nat) (entry : ExceptionEntry) :
    Option ExceptionEntry := do
  return ⟨← f entry.start, ← f entry.stop, ← f entry.handler, entry.catches⟩

def Frame.relabel? (f : Nat → Option Nat) (frame : Frame) : Option Frame := do
  return ⟨← f frame.start, ← f frame.stop, frame.depth⟩

/-- Where instructions start, and the end of the code. -/
def Chunk.boundaries (chunk : Chunk) : List Nat :=
  chunk.instructions.map InstructionOf.offset ++ [chunk.size]

/-- The number of the instruction that starts at the offset. -/
def Chunk.index? (chunk : Chunk) (offset : Nat) : Option Nat :=
  chunk.boundaries.findIdx? (· == offset)

/-- Code up to the numbering of constants. All positions are numbers of
instructions. -/
structure Outline where
  instructions : List (SymbolicOf Nat)
  exceptions : List ExceptionEntry
  frames : List Frame
deriving DecidableEq

def Code.outline? (pool : Pool) (code : Code) : Option Outline := do
  let instructions ← code.chunk.instructions.mapM fun instruction => do
    (← instruction.symbolic? pool).relabel? code.chunk.index?
  let exceptions ← code.exceptions.mapM (ExceptionEntry.relabel? code.chunk.index?)
  let frames ← code.frames.mapM (Frame.relabel? code.chunk.index?)
  return ⟨instructions, exceptions, frames⟩

theorem mapM_eq_some {α β : Type} {f : α → Option β} {items : List α} {results : List β} :
    items.mapM f = some results ↔ List.Forall₂ (fun item result => f item = some result)
      items results := by
  induction items generalizing results with
  | nil => simp [pure, eq_comm]
  | cons item rest ih =>
    simp only [List.mapM_cons, Option.bind_eq_bind, Option.bind_eq_some_iff, ih,
      List.forall₂_cons_left_iff]
    constructor
    · rintro ⟨first, hfirst, others, hothers, hresults⟩
      exact ⟨first, others, hfirst, hothers, (Option.some.inj hresults).symm⟩
    · rintro ⟨first, others, hfirst, hothers, rfl⟩
      exact ⟨first, hfirst, others, hothers, rfl⟩

theorem mapM_eq_some_mono {α β : Type} {f g : α → Option β} {items : List α} {results : List β}
    (hmono : ∀ item result, f item = some result → g item = some result)
    (h : items.mapM f = some results) : items.mapM g = some results :=
  mapM_eq_some.mpr ((mapM_eq_some.mp h).imp hmono)

/-- The constants at these indices of the pool. -/
def Pool.Has (pool : Pool) (indices : List UInt16) (constants : List Constant) : Prop :=
  List.Forall₂ (fun index constant => pool.get? index.toNat = some constant) indices constants

variable {index : Nat} {larger : Pool}

section Symbolic

variable {T U : Type}

theorem OperandOf.anonymous_map (f : T → U) (operand : OperandOf T) :
    (operand.map f).anonymous = operand.anonymous.map f := by
  cases operand <;> rfl

theorem OperandOf.targets_anonymous (operand : OperandOf T) :
    operand.anonymous.targets = operand.targets := by
  cases operand <;> rfl

theorem InstructionOf.targets_symbolic {pool : Pool} {instruction : InstructionOf T}
    {symbolic : SymbolicOf T} (h : instruction.symbolic? pool = some symbolic) :
    symbolic.operand.targets = instruction.operand.targets := by
  unfold symbolic? at h
  split_ifs at h
  · obtain ⟨constants, _, rfl⟩ := Option.map_eq_some_iff.mp h
    exact instruction.operand.targets_anonymous
  · obtain rfl := Option.some.inj h
    rfl

theorem InstructionOf.symbolic?_map (f : T → U) (pool : Pool) (instruction : InstructionOf T) :
    (instruction.map f).symbolic? pool = (instruction.symbolic? pool).map (SymbolicOf.map f) := by
  unfold symbolic?
  by_cases hreads : instruction.op.readsPool = true
  · simp [hreads, map, OperandOf.anonymous_map, SymbolicOf.map, Function.comp_def]
  · simp [hreads, map, SymbolicOf.map]

theorem InstructionOf.symbolic?_extend {pool : Pool} (hpool : pool.Extends larger)
    {instruction : InstructionOf T} {symbolic : SymbolicOf T}
    (h : instruction.symbolic? pool = some symbolic) :
    instruction.symbolic? larger = some symbolic := by
  unfold symbolic? at h ⊢
  split_ifs at h ⊢
  · obtain ⟨constants, hconstants, hsymbolic⟩ := Option.map_eq_some_iff.mp h
    rw [mapM_eq_some_mono (fun index : UInt16 => hpool index.toNat) hconstants]
    exact congrArg some hsymbolic
  · exact h

theorem OperandOf.relabel?_map {V : Type} {f : T → U} {g : U → Option V} {h : T → V}
    {operand : OperandOf T} (htargets : ∀ target ∈ operand.targets, g (f target) = some (h target)) :
    (operand.map f).relabel? g = some (operand.map h) := by
  cases operand with
  | jump target => simp [map, relabel?, htargets target (by simp [targets])]
  | table otherwise low high labels =>
    have hlabels : (labels.map f).mapM g = some (labels.map h) := by
      rw [mapM_eq_some, List.forall₂_map_left_iff, List.forall₂_map_right_iff,
        List.forall₂_same]
      exact fun label hlabel => htargets label (List.mem_cons_of_mem _ hlabel)
    simp [map, relabel?, htargets otherwise (by simp [targets]), hlabels]
  | lookup otherwise pairs =>
    have hpairs : (pairs.map fun pair => (pair.1, f pair.2)).mapM
        (fun pair => (g pair.2).map fun target => (pair.1, target)) =
          some (pairs.map fun pair => (pair.1, h pair.2)) := by
      rw [mapM_eq_some, List.forall₂_map_left_iff, List.forall₂_map_right_iff,
        List.forall₂_same]
      intro pair hpair
      have htarget : pair.2 ∈ targets (.lookup otherwise pairs) :=
        List.mem_cons_of_mem _ (List.mem_map_of_mem hpair)
      rw [htargets pair.2 htarget]
      rfl
    simp only [map, relabel?, htargets otherwise (by simp [targets]), hpairs]
    rfl
  | _ => rfl

end Symbolic

namespace Opcode

theorem readsPool_of_bare {op : Opcode} (h : op.operandSize = 0 ∧ op.isSwitch = false) :
    op.readsPool = false := by
  cases op <;> simp [operandSize, isSwitch] at h <;> rfl

theorem readsPool_of_isJump {op : Opcode} (h : op.isJump = true) : op.readsPool = false := by
  cases op <;> simp [isJump] at h <;> rfl

theorem readsPool_of_takesDigest {op : Opcode} (h : op.takesDigest = true) :
    op.readsPool = true := by
  cases op <;> simp [takesDigest] at h <;> rfl

theorem readsPool_ofInvoke (kind : InvokeKind) : (ofInvoke kind).readsPool = true := by
  cases kind <;> rfl

end Opcode

namespace Call

/-- The instruction of the call with its constants. It does not depend on where
the pool has these, so an empty pool will do. -/
def symbolic? (call : Call) : Option (SymbolicOf Label) :=
  (call.instruction? .empty).map fun emission =>
    ⟨emission.1.unsized, call.constants,
      if emission.1.readsPool then emission.2.anonymous else emission.2⟩

variable {call : Call} {pool : Pool} {op : Opcode} {operand : OperandOf Label}

theorem unsized_of_not_readsPool (hreads : op.readsPool = false) : op.unsized = op := by
  cases op with
  | constantWide => cases hreads
  | _ => rfl

/-- The same instruction is written whatever the pool is. -/
theorem symbolic?_of_same (hreads : op.readsPool = false) (hconstants : call.constants = [])
    (hempty : call.instruction? .empty = some (op, operand)) (offset : Nat) :
    InstructionOf.symbolic? (pool.addAll call.constants) ⟨offset, op, operand⟩ =
      call.symbolic? := by
  simp [InstructionOf.symbolic?, symbolic?, hempty, hreads, hconstants,
    unsized_of_not_readsPool hreads]

theorem symbolic?_of_readsPool {constants : List Constant} (hreads : op.readsPool = true)
    (hhas : pool.Has operand.indices constants) (offset : Nat) :
    InstructionOf.symbolic? pool ⟨offset, op, operand⟩ =
      some ⟨op.unsized, constants, operand.anonymous⟩ := by
  rw [InstructionOf.symbolic?, if_pos hreads, mapM_eq_some.mpr hhas]
  rfl

theorem get?_ofNat_add {value : Constant} (hlt : (pool.add value).1 < 65536) :
    (pool.add value).2.get? (UInt16.ofNat (pool.add value).1).toNat = some value := by
  rw [UInt16.toNat_ofNat_of_lt' hlt]
  exact pool.get?_add value

theorem symbolic?_loadConstant {value : Constant} (hlt : (pool.add value).1 < 65536)
    (offset : Nat) :
    InstructionOf.symbolic? (pool.add value).2
      ⟨offset, (loadConstant (pool.add value).1).1, (loadConstant (pool.add value).1).2⟩ =
        some ⟨.constant, [value], .none⟩ := by
  obtain ⟨hreads, hop, hoperand⟩ : (loadConstant (pool.add value).1).1.readsPool = true ∧
      (loadConstant (pool.add value).1).1.unsized = .constant ∧
        (loadConstant (pool.add value).1).2.anonymous = .none := by
    rw [loadConstant]
    split_ifs <;> exact ⟨rfl, rfl, rfl⟩
  rw [← hop, ← hoperand]
  apply symbolic?_of_readsPool hreads
  rw [indices_loadConstant hlt]
  exact .cons (get?_ofNat_add hlt) .nil

/-- A regular call writes its instruction, which names its constants in the pool. -/
theorem Regular.symbolic? (h : call.Regular) (hencodes : call.Encodes pool)
    {emission : Opcode × OperandOf Label} (hinstr : call.instruction? pool = some emission)
    (offset : Nat) :
    InstructionOf.symbolic? (pool.addAll call.constants) ⟨offset, emission.1, emission.2⟩ =
      call.symbolic? := by
  cases h.proper.writes hinstr with
  | bare hop hconstants hempty =>
    exact symbolic?_of_same (Opcode.readsPool_of_bare hop) hconstants hempty offset
  | @constant _ value hconstants hempty =>
    have hfits := hencodes.indices
    rw [Call.symbolic?, hempty]
    rw [hconstants] at hfits ⊢
    exact symbolic?_loadConstant (hfits _ List.mem_cons_self) offset
  | digest hop =>
    have hreads := Opcode.readsPool_of_takesDigest hop
    have hlt := hencodes.indices _ List.mem_cons_self
    have hhas : (pool.add _).2.Has [UInt16.ofNat _] [_] := .cons (get?_ofNat_add hlt) .nil
    simp only [Call.symbolic?, instruction?, Option.map_some, hreads, if_true]
    exact symbolic?_of_readsPool hreads hhas offset
  | invoke kind =>
    have hreads := Opcode.readsPool_ofInvoke kind
    have hlt := hencodes.indices _ List.mem_cons_self
    have hhas : (pool.add _).2.Has [UInt16.ofNat _] [_] := .cons (get?_ofNat_add hlt) .nil
    simp only [Call.symbolic?, instruction?, Option.map_some, hreads, if_true]
    exact symbolic?_of_readsPool hreads hhas offset
  | create ty constructor =>
    have htype : (pool.add (.digest ty)).1 < 65536 := hencodes.indices _ List.mem_cons_self
    have hconstructor : ((pool.add (.digest ty)).2.add (.digest constructor)).1 < 65536 :=
      hencodes.indices _ (List.mem_cons_of_mem _ List.mem_cons_self)
    have hkept := Pool.extends_add _ (.digest constructor) _ _ (get?_ofNat_add htype)
    have hhas : (Pool.add _ _).2.Has [UInt16.ofNat _, UInt16.ofNat _] [_, _] :=
      .cons hkept (.cons (get?_ofNat_add hconstructor) .nil)
    exact symbolic?_of_readsPool rfl hhas offset
  | getLocal slot | setLocal slot =>
    exact symbolic?_of_same (readsPool_accessLocal _ _ rfl rfl slot) rfl rfl offset
  | jump hop => exact symbolic?_of_same (Opcode.readsPool_of_isJump hop) rfl rfl offset
  | byte | short => exact h.elim
  | incLocal | tableSwitch | lookupSwitch => exact symbolic?_of_same rfl rfl rfl offset

theorem instruction?_isSome (call : Call) (pool other : Pool) :
    (call.instruction? pool).isSome = (call.instruction? other).isSome := by
  cases call with
  | int value =>
    simp only [instruction?]
    split_ifs <;> rfl
  | _ => rfl

theorem symbolic?_eq_none (h : call.instruction? pool = none) : call.symbolic? = none := by
  have hempty := call.instruction?_isSome .empty pool
  rw [h, Option.isSome_none, Option.isSome_eq_false_iff, Option.isNone_iff_eq_none] at hempty
  rw [symbolic?, hempty]
  rfl

end Call

/-- What calls write and declare, with positions as numbers of instructions. -/
structure Script where
  code : List (SymbolicOf Label)
  positions : Array (Option Nat)
  regions : Array Region
  openFrames : List Nat
  frames : Array Frame

namespace Script

def empty : Script := ⟨[], #[], #[], [], #[]⟩

/-- Make a call, without any pool. -/
def run (call : Call) (script : Script) : Script :=
  match call with
  | .newLabel => { script with positions := script.positions.push none }
  | .bind label =>
    { script with
      positions := script.positions.setIfInBounds label.id (some script.code.length) }
  | .enterFrame => { script with openFrames := script.code.length :: script.openFrames }
  | .exitFrame =>
    match script.openFrames with
    | [] => script
    | start :: rest =>
      { script with
        openFrames := rest
        frames := script.frames.push ⟨start, script.code.length, rest.length⟩ }
  | .region start stop handler catches =>
    { script with regions := script.regions.push ⟨start, stop, handler, catches⟩ }
  | call => { script with code := script.code ++ call.symbolic?.toList }

/-- The layout of an assembler where the instruction with number `i` starts at
the offset `start i`. -/
def layout (start : Nat → Nat) (script : Script) :
    Array (Option Nat) × Array Region × List Nat × Array Frame :=
  (script.positions.map (Option.map start), script.regions, script.openFrames.map start,
    script.frames.map fun frame => ⟨start frame.start, start frame.stop, frame.depth⟩)

/-- All positions lie in the code or at its end. -/
structure Valid (script : Script) : Prop where
  positions : ∀ position, some position ∈ script.positions → position ≤ script.code.length
  openFrames : ∀ position ∈ script.openFrames, position ≤ script.code.length
  frames : ∀ frame ∈ script.frames,
    frame.start ≤ script.code.length ∧ frame.stop ≤ script.code.length

theorem valid_empty : empty.Valid := ⟨by simp [empty], by simp [empty], by simp [empty]⟩

variable {script : Script}

theorem Valid.extend (h : script.Valid) (written : List (SymbolicOf Label)) :
    Valid { script with code := script.code ++ written } := by
  have hle : script.code.length ≤ (script.code ++ written).length := by
    rw [List.length_append]
    omega
  refine ⟨fun position hmem => ?_, fun position hmem => ?_, fun frame hmem => ?_⟩
  · exact (h.positions position hmem).trans hle
  · exact (h.openFrames position hmem).trans hle
  · exact ⟨(h.frames frame hmem).1.trans hle, (h.frames frame hmem).2.trans hle⟩

theorem Valid.run (h : script.Valid) (call : Call) : (script.run call).Valid := by
  cases call with
  | newLabel =>
    refine { h with positions := fun position hmem => ?_ }
    rcases Array.mem_push.mp hmem with hmem | hnone
    · exact h.positions position hmem
    · cases hnone
  | bind label =>
    refine { h with positions := fun position hmem => ?_ }
    rcases Array.mem_or_eq_of_mem_setIfInBounds hmem with hmem | hnew
    · exact h.positions position hmem
    · exact (Option.some.inj hnew).le
  | enterFrame =>
    refine { h with openFrames := fun position hmem => ?_ }
    rcases List.mem_cons.mp hmem with rfl | hmem
    · exact le_rfl
    · exact h.openFrames position hmem
  | exitFrame =>
    unfold Script.run
    cases hopen : script.openFrames with
    | nil => exact h
    | cons start rest =>
      have hstart := h.openFrames start (by rw [hopen]; exact List.mem_cons_self)
      refine ⟨h.positions, fun position hmem => ?_, fun frame hmem => ?_⟩
      · exact h.openFrames position (by rw [hopen]; exact List.mem_cons_of_mem _ hmem)
      · rcases Array.mem_push.mp hmem with hmem | rfl
        · exact h.frames frame hmem
        · exact ⟨hstart, le_rfl⟩
  | region start stop handler catches => exact { h with }
  | _ => exact h.extend _

theorem Valid.layout_congr (h : script.Valid) {start other : Nat → Nat}
    (heq : ∀ position ≤ script.code.length, start position = other position) :
    script.layout start = script.layout other := by
  unfold layout
  congr 1
  · apply Array.map_congr_left
    intro position hmem
    cases position with
    | none => rfl
    | some position => exact congrArg some (heq position (h.positions position hmem))
  · congr 2
    · exact List.map_congr_left fun position hmem => heq position (h.openFrames position hmem)
    · apply Array.map_congr_left
      intro frame hmem
      obtain ⟨hstart, hstop⟩ := h.frames frame hmem
      rw [heq _ hstart, heq _ hstop]

end Script

/-- Where the instruction with a number starts. -/
def offsetAt {T : Type} (code : List (InstructionOf T)) (index : Nat) : Nat :=
  sizeAll (code.take index)

theorem offsetAt_length {T : Type} (code : List (InstructionOf T)) :
    offsetAt code code.length = sizeAll code := by
  rw [offsetAt, List.take_length]

theorem offsetAt_append {T : Type} {code : List (InstructionOf T)} (h : index ≤ code.length)
    (written : List (InstructionOf T)) :
    offsetAt (code ++ written) index = offsetAt code index := by
  rw [offsetAt, offsetAt, List.take_append_of_le_length h]

/-- The assembler has written the script as `code`. -/
structure Assembler.Realizes (asm : Assembler) (script : Script)
    (code : List (InstructionOf Label)) : Prop where
  holds : asm.Holds code
  symbolic : List.Forall₂ (fun instruction symbolic =>
    instruction.symbolic? asm.pool = some symbolic) code script.code
  layout : asm.layout = script.layout (offsetAt code)
  valid : script.Valid

namespace Assembler.Realizes

variable {asm : Assembler} {script : Script} {code : List (InstructionOf Label)}

theorem new (pool : Pool) : (Assembler.new pool).Realizes .empty [] :=
  ⟨holds_new pool, .nil, by simp [Assembler.layout, Script.layout, Assembler.new, Script.empty],
    Script.valid_empty⟩

section

variable (h : asm.Realizes script code)

include h

theorem length_eq : script.code.length = code.length :=
  h.symbolic.length_eq.symm

theorem withPool (hpool : asm.pool.Extends larger) :
    Realizes { asm with pool := larger } script code where
  holds := h.holds.congr rfl rfl
  symbolic := h.symbolic.imp fun _ _ => InstructionOf.symbolic?_extend hpool
  layout := h.layout
  valid := h.valid

/-- A call that writes an instruction. -/
theorem run_written {call : Call} (hregular : call.Regular)
    (hencodes : call.Encodes asm.pool) {emission : Opcode × OperandOf Label}
    (hinstr : call.instruction? asm.pool = some emission) :
    (call.run asm).Realizes { script with code := script.code ++ call.symbolic?.toList }
      (code ++ call.written asm) := by
  obtain ⟨op, operand⟩ := emission
  have hwritten : call.written asm = [⟨asm.offset, op, operand⟩] := by
    rw [Call.written, hinstr]
    rfl
  have hsome : call.symbolic?.isSome := by
    rw [Call.symbolic?, Option.isSome_map, call.instruction?_isSome .empty asm.pool, hinstr]
    rfl
  obtain ⟨symbolic, hsymbolic⟩ := Option.isSome_iff_exists.mp hsome
  have hread : InstructionOf.symbolic? (call.run asm).pool ⟨asm.offset, op, operand⟩ =
      some symbolic := by
    rw [Call.pool_run, hregular.symbolic? hencodes hinstr asm.offset, hsymbolic]
  have hpool : asm.pool.Extends (call.run asm).pool := by
    rw [Call.pool_run]
    exact Pool.extends_addAll _ _
  refine ⟨h.holds.run hregular.proper hencodes, ?_, ?_, h.valid.extend _⟩
  · rw [hwritten, hsymbolic]
    exact List.rel_append (h.symbolic.imp fun _ _ => InstructionOf.symbolic?_extend hpool)
      (.cons hread .nil)
  · rw [Call.layout_run hinstr, h.layout]
    apply h.valid.layout_congr
    intro position hposition
    rw [h.length_eq] at hposition
    exact (offsetAt_append hposition _).symm

theorem offset_eq : asm.offset = offsetAt code script.code.length := by
  rw [h.holds.offset_eq, h.length_eq, offsetAt_length]

/-- A call that writes nothing changes the layout as in the script. -/
theorem layout_run_silent {call : Call} (hinstr : call.instruction? asm.pool = none) :
    (call.run asm).layout = (script.run call).layout (offsetAt code) := by
  obtain ⟨hpositions, hrest⟩ := Prod.mk.inj h.layout
  obtain ⟨hregions, hrest⟩ := Prod.mk.inj hrest
  obtain ⟨hopen, hframes⟩ := Prod.mk.inj hrest
  cases Call.silent_of_instruction? hinstr with
  | newLabel =>
    simp [Call.run, Assembler.newLabel, Assembler.layout, Script.run, Script.layout,
      hpositions, hregions, hopen, hframes]
  | bind label =>
    simp [Call.run, Assembler.bind, Assembler.layout, Script.run, Script.layout,
      hpositions, hregions, hopen, hframes, h.offset_eq]
  | enterFrame =>
    simp [Call.run, Assembler.enterFrame, Assembler.layout, Script.run, Script.layout,
      hpositions, hregions, hopen, hframes, h.offset_eq]
  | exitFrame =>
    rw [Call.run, Assembler.exitFrame, Script.run, hopen]
    cases script.openFrames with
    | nil => exact h.layout
    | cons start rest =>
      simp [Assembler.layout, Script.layout, hpositions, hregions, hframes, h.offset_eq]
  | region start stop handler catches =>
    simp [Call.run, Assembler.region, Assembler.layout, Script.run, Script.layout,
      hpositions, hregions, hopen, hframes]
  | pop | dup => exact h.layout

/-- One call keeps the assembler in step with the script. -/
theorem run {call : Call} (hregular : call.Regular) (hencodes : call.Encodes asm.pool) :
    (call.run asm).Realizes (script.run call) (code ++ call.written asm) := by
  cases hinstr : call.instruction? asm.pool with
  | some emission =>
    have hrun := h.run_written hregular hencodes hinstr
    cases call with
    | newLabel | bind label | enterFrame | exitFrame | region start stop handler catches =>
      cases hinstr
    | _ => exact hrun
  | none =>
    have hlayout := h.layout_run_silent hinstr
    obtain ⟨hchunk, hfixups, hpool, _⟩ := Call.run_of_instruction?_none hinstr
    have hcode : (script.run call).code = script.code := by
      have hsilent := Call.symbolic?_eq_none hinstr
      cases call with
      | exitFrame =>
        rw [Script.run]
        cases script.openFrames <;> rfl
      | newLabel | bind label | enterFrame | region start stop handler catches => rfl
      | _ =>
        simp only [Script.run, hsilent]
        exact List.append_nil _
    rw [Call.written, hinstr, Option.map_none, Option.toList_none, List.append_nil]
    refine ⟨h.holds.congr hchunk hfixups, ?_, hlayout, h.valid.run call⟩
    rw [hcode, hpool]
    exact h.symbolic

end

end Assembler.Realizes

namespace Script

def position? (script : Script) (label : Label) : Option Nat := (script.positions[label.id]?).join

def positionOf (script : Script) (label : Label) : Nat := (script.position? label).getD 0

/-- The entry of a region, if there is code in it. -/
def exception? (script : Script) (region : Region) : Option ExceptionEntry :=
  if script.positionOf region.start < script.positionOf region.stop then
    some ⟨script.positionOf region.start, script.positionOf region.stop,
      script.positionOf region.handler, region.catches⟩
  else none

/-- The outline of the code that the script stands for. -/
def outline (script : Script) : Outline where
  instructions := script.code.map (SymbolicOf.map script.positionOf)
  exceptions := script.regions.toList.filterMap script.exception?
  frames := sortBy Frame.precedes script.frames.toList

end Script

section Offsets

variable {T : Type} {code : List (InstructionOf T)}

theorem offsetAt_succ (h : index < code.length) :
    offsetAt code (index + 1) = offsetAt code index + code[index].size := by
  simp only [offsetAt, sizeAll, List.map_take]
  rw [List.sum_take_succ _ _ (by rwa [List.length_map]), List.getElem_map]

theorem offsetAt_lt {other : Nat} (hlt : index < other) (hle : other ≤ code.length) :
    offsetAt code index < offsetAt code other := by
  induction other with
  | zero => omega
  | succ other ih =>
    have hstep := offsetAt_succ hle
    have hpos := code[other].size_pos
    rcases Nat.lt_succ_iff_lt_or_eq.mp hlt with hbefore | rfl
    · have := ih hbefore (by omega)
      omega
    · omega

theorem offsetAt_lt_iff {other : Nat} (hindex : index ≤ code.length) (hother : other ≤ code.length) :
    offsetAt code index < offsetAt code other ↔ index < other := by
  constructor
  · intro hlt
    by_contra hnot
    rcases Nat.lt_or_eq_of_le (Nat.not_lt.mp hnot) with hbefore | rfl
    · have := offsetAt_lt hbefore hindex
      omega
    · omega
  · intro hlt
    exact offsetAt_lt hlt hother

theorem Tiles.offset_getElem {start : Nat} (h : Tiles start code) (hindex : index < code.length) :
    code[index].offset = start + offsetAt code index := by
  induction code generalizing start index with
  | nil => simp at hindex
  | cons instruction rest ih =>
    obtain ⟨hoffset, hrest⟩ := h
    cases index with
    | zero => simpa [offsetAt, sizeAll] using hoffset
    | succ index =>
      have hnext := ih hrest (by simpa using hindex)
      rw [List.getElem_cons_succ, hnext]
      simp [offsetAt, sizeAll, Nat.add_assoc]

end Offsets

namespace Assembler.Realizes

variable {asm : Assembler} {script : Script} {code : List (InstructionOf Label)} {final : Code}

section

variable (h : asm.Realizes script code)

include h

theorem boundaries_eq (hfinish : asm.finish = .ok final) :
    final.chunk.boundaries = (List.range (code.length + 1)).map (offsetAt code) := by
  obtain ⟨hinstructions, _, _, hsize⟩ := h.holds.finish hfinish
  rw [Chunk.boundaries, List.range_succ, List.map_append, hinstructions, hsize,
    h.holds.offset_eq]
  congr 1
  · apply List.ext_getElem
    · simp
    · intro index hindex _
      have hlt : index < code.length := by simpa using hindex
      have hoffset := h.holds.tiles.offset_getElem hlt
      simpa [InstructionOf.map] using hoffset
  · simp [offsetAt_length]

theorem index?_offsetAt (hfinish : asm.finish = .ok final) (hindex : index ≤ code.length) :
    final.chunk.index? (offsetAt code index) = some index := by
  rw [Chunk.index?, h.boundaries_eq hfinish, List.findIdx?_eq_some_iff_getElem]
  refine ⟨by simp; omega, by simp, fun other hother => ?_⟩
  have := offsetAt_lt hother hindex
  simp
  omega

theorem position?_eq (label : Label) :
    asm.position? label = (script.position? label).map (offsetAt code) := by
  have hpositions := (Prod.mk.inj h.layout).1
  rw [Assembler.position?, Script.position?, hpositions, Array.getElem?_map]
  cases script.positions[label.id]? <;> rfl

theorem position?_le {label : Label} {position : Nat}
    (hposition : script.position? label = some position) : position ≤ code.length := by
  rw [← h.length_eq]
  apply h.valid.positions
  rw [Script.position?, Option.join_eq_some_iff] at hposition
  exact Array.mem_of_getElem? hposition

theorem index?_position (hfinish : asm.finish = .ok final)
    {label : Label} {position : Nat} (hposition : asm.position? label = some position) :
    final.chunk.index? position = some (script.positionOf label) := by
  rw [h.position?_eq] at hposition
  obtain ⟨index, hindex, rfl⟩ := Option.map_eq_some_iff.mp hposition
  rw [h.index?_offsetAt hfinish (h.position?_le hindex), Script.positionOf, hindex]
  rfl

theorem mapM_instructions (hfinish : asm.finish = .ok final) :
    final.chunk.instructions.mapM (fun instruction => do
      (← instruction.symbolic? asm.pool).relabel? final.chunk.index?) =
        some (script.code.map (SymbolicOf.map script.positionOf)) := by
  obtain ⟨hinstructions, _, hresolvable, _⟩ := h.holds.finish hfinish
  rw [hinstructions, mapM_eq_some, List.forall₂_map_left_iff, List.forall₂_map_right_iff]
  apply ((List.forall₂_and_left _ _).mpr ⟨hresolvable, h.symbolic⟩).imp
  rintro instruction symbolic ⟨htargets, hsymbolic⟩
  have hrelabel : (symbolic.map asm.positionOf).relabel? final.chunk.index? =
      some (symbolic.map script.positionOf) := by
    rw [SymbolicOf.relabel?, SymbolicOf.map, OperandOf.relabel?_map]
    · rfl
    · intro target htarget
      rw [InstructionOf.targets_symbolic hsymbolic] at htarget
      obtain ⟨position, hposition, _⟩ := htargets target htarget
      rw [Assembler.positionOf, hposition]
      exact h.index?_position hfinish hposition
  simp [InstructionOf.symbolic?_map, hsymbolic, hrelabel]

theorem mapM_exceptions (hfinish : asm.finish = .ok final)
    {regions : List Region} {entries : List (Option ExceptionEntry)}
    (hregions : regions.mapM asm.resolveRegion = .ok entries) :
    (entries.filterMap id).mapM (ExceptionEntry.relabel? final.chunk.index?) =
      some (regions.filterMap script.exception?) := by
  induction regions generalizing entries with
  | nil =>
    obtain rfl : [] = entries := Except.ok.inj hregions
    rfl
  | cons region rest ih =>
    simp only [List.mapM_cons, bind_eq_ok] at hregions
    obtain ⟨first, hfirst, others, hothers, hentries⟩ := hregions
    obtain rfl : first :: others = entries := Except.ok.inj hentries
    obtain ⟨start, stop, handler, hstart, hstop, hhandler, hentry⟩ :=
      resolveRegion_eq_ok.mp hfirst
    have hrest := ih hothers
    have hlt : start < stop ↔
        script.positionOf region.start < script.positionOf region.stop := by
      rw [h.position?_eq] at hstart hstop
      obtain ⟨first, hfirst, rfl⟩ := Option.map_eq_some_iff.mp hstart
      obtain ⟨last, hlast, rfl⟩ := Option.map_eq_some_iff.mp hstop
      rw [offsetAt_lt_iff (h.position?_le hfirst) (h.position?_le hlast), Script.positionOf,
        Script.positionOf, hfirst, hlast]
      rfl
    by_cases hcode : start < stop
    · have hexception : script.exception? region = some ⟨script.positionOf region.start,
          script.positionOf region.stop, script.positionOf region.handler, region.catches⟩ :=
        if_pos (hlt.mp hcode)
      have hrelabel : ExceptionEntry.relabel? final.chunk.index?
          ⟨start, stop, handler, region.catches⟩ = script.exception? region := by
        rw [hexception, ExceptionEntry.relabel?, h.index?_position hfinish hstart,
          h.index?_position hfinish hstop, h.index?_position hfinish hhandler]
        rfl
      rw [if_pos hcode] at hentry
      rw [hentry, List.filterMap_cons, List.filterMap_cons, hexception]
      dsimp only [id]
      rw [List.mapM_cons, hrelabel, hexception, hrest]
      rfl
    · have hexception : script.exception? region = none := if_neg (mt hlt.mpr hcode)
      rw [if_neg hcode] at hentry
      rw [hentry, List.filterMap_cons, List.filterMap_cons, hexception]
      exact hrest

/-- Brackets are sorted by position as they are by offset. -/
theorem mapM_frames (hfinish : asm.finish = .ok final) :
    (sortBy Frame.precedes asm.frames.toList).mapM (Frame.relabel? final.chunk.index?) =
      some (sortBy Frame.precedes script.frames.toList) := by
  have hframes : asm.frames = script.frames.map fun frame =>
      ⟨offsetAt code frame.start, offsetAt code frame.stop, frame.depth⟩ :=
    congrArg (fun layout => layout.2.2.2) h.layout
  have hle (frame : Frame) (hmem : frame ∈ script.frames.toList) :
      frame.start ≤ code.length ∧ frame.stop ≤ code.length := by
    rw [← h.length_eq]
    exact h.valid.frames frame (Array.mem_toList_iff.mp hmem)
  have hprecedes : ∀ a ∈ script.frames.toList, ∀ b ∈ script.frames.toList,
      a.precedes b = true ↔ Frame.precedes ⟨offsetAt code a.start, offsetAt code a.stop, a.depth⟩
        ⟨offsetAt code b.start, offsetAt code b.stop, b.depth⟩ = true := by
    intro a ha b hb
    have hlt := offsetAt_lt_iff (hle a ha).1 (hle b hb).1
    have hgt := offsetAt_lt_iff (hle b hb).1 (hle a ha).1
    simp only [Frame.precedes, Bool.or_eq_true, Bool.and_eq_true, decide_eq_true_eq,
      beq_iff_eq]
    omega
  rw [hframes, Array.toList_map, sortBy_eq_insertionSort, sortBy_eq_insertionSort,
    ← List.map_insertionSort _ _ _ _ hprecedes, mapM_eq_some, List.forall₂_map_left_iff,
    List.forall₂_same]
  intro frame hmem
  obtain ⟨hstart, hstop⟩ := hle frame ((List.perm_insertionSort _ _).mem_iff.mp hmem)
  rw [Frame.relabel?, h.index?_offsetAt hfinish hstart, h.index?_offsetAt hfinish hstop]
  rfl

theorem outline? (hfinish : asm.finish = .ok final) :
    final.outline? asm.pool = some script.outline := by
  have hinstructions := h.mapM_instructions hfinish
  have hframes := h.mapM_frames hfinish
  have hexceptions {entries : List (Option ExceptionEntry)}
      (hregions : asm.regions.toList.mapM asm.resolveRegion = .ok entries) :=
    h.mapM_exceptions hfinish hregions
  have hregions : asm.regions = script.regions := congrArg (fun layout => layout.2.1) h.layout
  obtain ⟨_, chunk, entries, _, hentries, rfl⟩ := finish_eq_ok.mp hfinish
  rw [Code.outline?, hinstructions, hexceptions hentries, hframes, hregions]
  rfl

end

end Assembler.Realizes

/-- What can be read in a pool can be read in any larger one. -/
theorem Code.outline?_extend {pool : Pool} (hpool : pool.Extends larger) {code : Code}
    {outline : Outline} (h : code.outline? pool = some outline) :
    code.outline? larger = some outline := by
  obtain ⟨instructions, hinstructions, hrest⟩ := Option.bind_eq_some_iff.mp h
  have hmono (instruction : Instruction) (result : SymbolicOf Nat)
      (hread : (do (← instruction.symbolic? pool).relabel? code.chunk.index?) = some result) :
      (do (← instruction.symbolic? larger).relabel? code.chunk.index?) = some result := by
    obtain ⟨symbolic, hsymbolic, hresult⟩ := Option.bind_eq_some_iff.mp hread
    rw [InstructionOf.symbolic?_extend hpool hsymbolic]
    exact hresult
  rw [outline?, mapM_eq_some_mono hmono hinstructions]
  exact hrest

end StackLowering
