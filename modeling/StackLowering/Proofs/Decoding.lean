import StackLowering.Proofs.Encoding
/-!
Reading arbitrary bytes. Nothing is known about the bytes of a chunk: they need
not come from an assembler. What decoding returns is nevertheless faithful. An
instruction that is read has the operand that belongs to its opcode, and written
again, with its targets relative to its own offset, it gives the bytes it was
read from. So the instructions of a chunk tile a prefix of it, and they end at
the end of the bytes or where no instruction can be read.
-/

namespace StackLowering

/-- How a jump target is stored: relative to the instruction at `origin`. -/
def storedTarget (origin target : Nat) : Int32 := Int32.ofInt ((target : Int) - origin)

namespace Opcode

theorem toByte_of_ofByte? {byte : UInt8} {op : Opcode} (h : ofByte? byte = some op) :
    op.toByte = byte := by
  have hall : all.map toByte = (List.range all.length).map UInt8.ofNat := rfl
  have hlt : byte.toNat < all.length := (List.getElem?_eq_some_iff.mp h).1
  have hat := congrArg (fun bytes => bytes[byte.toNat]?) hall
  rw [ofByte?] at h
  simpa [h, List.getElem?_range hlt] using hat

theorem operand_forms (op : Opcode) :
    op = .tableSwitch ∨ op = .lookupSwitch ∨ op.isJump = true ∨ op = .incLocal ∨
      (∃ kind, op = .ofInvoke kind) ∨ op = .create ∨ op.operandSize ≤ 2 ∧ op.isSwitch = false := by
  cases op
  case invokeStatic => simp [show invokeStatic = .ofInvoke .static from rfl]
  case invokeVirtual => simp [show invokeVirtual = .ofInvoke .virtual from rfl]
  case invokeInterface => simp [show invokeInterface = .ofInvoke .interface from rfl]
  case invokeSpecial => simp [show invokeSpecial = .ofInvoke .special from rfl]
  all_goals simp [isJump, operandSize, isSwitch]

end Opcode

variable {origin : Nat}

namespace Chunk

variable {chunk : Chunk} {offset : Nat}

section Reads

/-! What is read from a chunk lies there. -/

theorem hasAt_of_byte? {byte : UInt8} (h : chunk.byte? offset = some byte) :
    chunk.HasAt offset [byte] := by
  obtain ⟨hlt, hbyte⟩ := Array.getElem?_eq_some_iff.mp h
  rw [HasAt, List.drop_eq_getElem_cons (by simpa using hlt), Array.getElem_toList, hbyte]
  exact ⟨_, rfl⟩

theorem HasAt.cons {byte : UInt8} {rest : List UInt8} (h : chunk.byte? offset = some byte)
    (hrest : chunk.HasAt (offset + 1) rest) : chunk.HasAt offset (byte :: rest) :=
  (chunk.hasAt_append offset [byte] rest).mpr ⟨hasAt_of_byte? h, hrest⟩

theorem hasAt_of_u16? {value : UInt16} (h : chunk.u16? offset = some value) :
    chunk.HasAt offset (BigEndian.bytes16 value) := by
  simp only [Chunk.u16?, Option.bind_eq_bind, Option.bind_eq_some_iff, Option.pure_def,
    Option.some.injEq] at h
  obtain ⟨b0, h0, b1, h1, rfl⟩ := h
  rw [BigEndian.bytes16_word16]
  exact .cons h0 (hasAt_of_byte? h1)

theorem hasAt_of_i16? {value : Int16} (h : chunk.i16? offset = some value) :
    chunk.HasAt offset (BigEndian.bytes16 value.toUInt16) := by
  obtain ⟨word, hword, rfl⟩ := Option.map_eq_some_iff.mp h
  simpa using hasAt_of_u16? hword

theorem hasAt_of_i32? {value : Int32} (h : chunk.i32? offset = some value) :
    chunk.HasAt offset (BigEndian.bytes32 value.toUInt32) := by
  simp only [Chunk.i32?, Option.bind_eq_bind, Option.bind_eq_some_iff, Option.pure_def,
    Option.some.injEq] at h
  obtain ⟨b0, h0, b1, h1, b2, h2, b3, h3, rfl⟩ := h
  rw [UInt32.toUInt32_toInt32, BigEndian.bytes32_word32]
  exact .cons h0 (.cons h1 (.cons h2 (hasAt_of_byte? h3)))

theorem hasAt_of_target? {target : Nat} (h : chunk.target? origin offset = some target) :
    chunk.HasAt offset (BigEndian.bytes32 (storedTarget origin target).toUInt32) := by
  simp only [Chunk.target?, Option.bind_eq_bind, Option.bind_eq_some_iff] at h
  obtain ⟨relative, hrelative, h⟩ := h
  split at h
  · cases h
  · cases h
    have hstored : storedTarget origin ((origin : Int) + relative.toInt).toNat = relative := by
      rw [storedTarget, Int.toNat_of_nonneg (by omega), add_sub_cancel_left, Int32.ofInt_toInt]
    rw [hstored]
    exact hasAt_of_i32? hrelative

theorem hasAt_flatMap {α : Type} (width : Nat) {items : List α} {bytes : α → List UInt8}
    (hwidth : ∀ item ∈ items, (bytes item).length = width)
    (h : ∀ i (hi : i < items.length), chunk.HasAt (offset + width * i) (bytes items[i])) :
    chunk.HasAt offset (items.flatMap bytes) := by
  induction items generalizing offset with
  | nil => exact List.nil_prefix
  | cons item rest ih =>
    rw [List.flatMap_cons, hasAt_append, hwidth item (by simp)]
    refine ⟨h 0 (by simp), ih (fun x hx => hwidth x (by simp [hx])) fun i hi => ?_⟩
    have hnext := h (i + 1) (by simpa using hi)
    rwa [Nat.mul_succ, Nat.add_comm (width * i), ← Nat.add_assoc] at hnext

private theorem mapM_eq_some_getElem {α β : Type} {f : α → Option β} {keys : List α}
    {items : List β} (h : keys.mapM f = some items) :
    ∃ hlength : items.length = keys.length,
      ∀ i (hi : i < items.length), f keys[i] = some items[i] := by
  induction keys generalizing items with
  | nil =>
    cases h
    exact ⟨rfl, fun i hi => absurd hi (Nat.not_lt_zero i)⟩
  | cons key rest ih =>
    simp only [List.mapM_cons, Option.bind_eq_bind, Option.bind_eq_some_iff, Option.pure_def,
      Option.some.injEq] at h
    obtain ⟨item, hitem, others, hothers, rfl⟩ := h
    obtain ⟨hlength, hrest⟩ := ih hothers
    refine ⟨by simp [hlength], fun i hi => ?_⟩
    cases i with
    | zero => exact hitem
    | succ i => exact hrest i (by simpa using hi)

theorem hasAt_of_targets? {start count : Nat} {targets : List Nat}
    (h : chunk.targets? origin start count = some targets) :
    targets.length = count ∧ chunk.HasAt start (targets.flatMap fun target =>
      BigEndian.bytes32 (storedTarget origin target).toUInt32) := by
  rw [targets?] at h
  split at h
  · obtain ⟨hlength, htargets⟩ := mapM_eq_some_getElem h
    rw [List.length_range] at hlength
    refine ⟨hlength, hasAt_flatMap 4 (fun _ _ => rfl) fun i hi => ?_⟩
    have htarget := htargets i hi
    rw [List.getElem_range] at htarget
    exact hasAt_of_target? htarget
  · cases h

theorem hasAt_of_pairs? {start count : Nat} {pairs : List (Int32 × Nat)}
    (h : chunk.pairs? origin start count = some pairs) :
    pairs.length = count ∧ chunk.HasAt start (pairs.flatMap fun pair =>
      BigEndian.bytes32 pair.1.toUInt32 ++
        BigEndian.bytes32 (storedTarget origin pair.2).toUInt32) := by
  rw [pairs?] at h
  split at h
  · obtain ⟨hlength, hpairs⟩ := mapM_eq_some_getElem h
    rw [List.length_range] at hlength
    refine ⟨hlength, hasAt_flatMap 8 (fun _ _ => rfl) fun i hi => ?_⟩
    have hpair := hpairs i hi
    simp only [List.getElem_range, Option.bind_eq_bind, Option.bind_eq_some_iff, Option.pure_def,
      Option.some.injEq] at hpair
    obtain ⟨key, hkey, target, htarget, hpair⟩ := hpair
    rw [← hpair]
    exact (chunk.hasAt_append _ _ _).mpr ⟨hasAt_of_i32? hkey, hasAt_of_target? htarget⟩
  · cases h

end Reads

/-- `operand` is what `op` asks for, and its bytes lie between the opcode at `offset`
and `next`. -/
structure ReadOperand (chunk : Chunk) (offset : Nat) (op : Opcode) (operand : Operand)
    (next : Nat) : Prop where
  fits : operand.Fits op
  hasAt : chunk.HasAt (offset + 1) (operand.pieces.flatMap (Piece.render (storedTarget offset)))
  next_eq : next = offset + (1 + (operand.pieces.map Piece.width).sum)

section Operands

variable {op : Opcode} {operand : Operand} {next : Nat}

theorem readOperand_of_table (h : chunk.tableOperand? offset = some (operand, next)) :
    chunk.ReadOperand offset .tableSwitch operand next := by
  simp only [tableOperand?, Option.bind_eq_bind, Option.bind_eq_some_iff] at h
  obtain ⟨otherwise, hotherwise, low, hlow, high, hhigh, h⟩ := h
  split at h
  · cases h
  next hcount =>
    simp only [Option.bind_eq_some_iff, Option.pure_def, Option.some.injEq, Prod.mk.injEq] at h
    obtain ⟨targets, htargets, rfl, rfl⟩ := h
    obtain ⟨hlength, htargets⟩ := hasAt_of_targets? htargets
    refine ⟨⟨rfl, by omega⟩, ?_, ?_⟩
    · have hlayout : (OperandOf.table otherwise low high targets).pieces.flatMap
          (Piece.render (storedTarget offset)) =
            BigEndian.bytes32 (storedTarget offset otherwise).toUInt32 ++
            (BigEndian.bytes32 low.toUInt32 ++ (BigEndian.bytes32 high.toUInt32 ++
              targets.flatMap fun target =>
                BigEndian.bytes32 (storedTarget offset target).toUInt32)) := by
        simp [OperandOf.pieces, Piece.render, List.flatMap_cons, List.flatMap_map]
      rw [hlayout, hasAt_append, hasAt_append, hasAt_append]
      exact ⟨hasAt_of_target? hotherwise, hasAt_of_i32? hlow, hasAt_of_i32? hhigh, htargets⟩
    · simp [OperandOf.pieces, Piece.width, BigEndian.bytes32, Function.comp_def, hlength]
      omega

theorem readOperand_of_lookup (h : chunk.lookupOperand? offset = some (operand, next)) :
    chunk.ReadOperand offset .lookupSwitch operand next := by
  simp only [lookupOperand?, Option.bind_eq_bind, Option.bind_eq_some_iff] at h
  obtain ⟨otherwise, hotherwise, count, hcount, h⟩ := h
  split at h
  · cases h
  next hnonneg =>
    simp only [Option.bind_eq_some_iff, Option.pure_def, Option.some.injEq, Prod.mk.injEq] at h
    obtain ⟨pairs, hpairs, rfl, rfl⟩ := h
    obtain ⟨hlength, hpairs⟩ := hasAt_of_pairs? hpairs
    have hbound := count.toInt_lt
    have hstored : Int32.ofNat pairs.length = count := by
      apply Int32.toInt_inj.mp
      rw [Int32.toInt_ofNat_of_lt (by omega)]
      omega
    refine ⟨⟨rfl, by omega⟩, ?_, ?_⟩
    · have hlayout : (OperandOf.lookup otherwise pairs).pieces.flatMap
          (Piece.render (storedTarget offset)) =
            BigEndian.bytes32 (storedTarget offset otherwise).toUInt32 ++
            (BigEndian.bytes32 (Int32.ofNat pairs.length).toUInt32 ++
              pairs.flatMap fun pair => BigEndian.bytes32 pair.1.toUInt32 ++
                BigEndian.bytes32 (storedTarget offset pair.2).toUInt32) := by
        simp [OperandOf.pieces, Piece.render, List.flatMap_cons, List.flatMap_assoc]
      rw [hlayout, hasAt_append, hasAt_append, hstored]
      exact ⟨hasAt_of_target? hotherwise, hasAt_of_i32? hcount, hpairs⟩
    · simp [OperandOf.pieces, Piece.width, BigEndian.bytes32, List.map_flatMap, sum_pair_widths,
        hlength]
      omega

/-- Operands of at most two bytes. -/
theorem readOperand_of_size_le (hsize : op.operandSize ≤ 2) (hswitch : op.isSwitch = false)
    (h : chunk.operand? offset op = some (operand, next)) :
    chunk.ReadOperand offset op operand next := by
  rw [operand?_of_size_le hsize hswitch] at h
  split at h
  next hzero =>
    cases h
    exact ⟨⟨hzero, hswitch⟩, List.nil_prefix, rfl⟩
  next hone =>
    simp only [Option.map_eq_some_iff, Prod.mk.injEq] at h
    obtain ⟨byte, hbyte, rfl, rfl⟩ := h
    exact ⟨hone, hasAt_of_byte? hbyte, rfl⟩
  next hzero hone =>
    simp only [Option.map_eq_some_iff, Prod.mk.injEq] at h
    obtain ⟨word, hword, rfl, rfl⟩ := h
    have hzero : op.operandSize ≠ 0 := hzero
    have hone : op.operandSize ≠ 1 := hone
    have htwo : op.operandSize = 2 := by omega
    exact ⟨htwo, hasAt_of_u16? hword, rfl⟩

/-- The operand that is read for an opcode has the form and the bytes it asks for. -/
theorem readOperand_of_operand? (h : chunk.operand? offset op = some (operand, next)) :
    chunk.ReadOperand offset op operand next := by
  rcases op.operand_forms with rfl | rfl | hjump | rfl | ⟨kind, rfl⟩ | rfl | ⟨hsize, hswitch⟩
  · exact readOperand_of_table h
  · exact readOperand_of_lookup h
  · have hread : chunk.operand? offset op = (do
        let target ← chunk.target? offset (offset + 1)
        return (.jump target, offset + 5)) := by
      cases op <;> first | rfl | cases hjump
    simp only [hread, Option.bind_eq_bind, Option.bind_eq_some_iff, Option.pure_def,
      Option.some.injEq, Prod.mk.injEq] at h
    obtain ⟨target, htarget, rfl, rfl⟩ := h
    exact ⟨hjump, hasAt_of_target? htarget, rfl⟩
  · simp only [operand?, Option.bind_eq_bind, Option.bind_eq_some_iff, Option.pure_def,
      Option.some.injEq, Prod.mk.injEq] at h
    obtain ⟨slot, hslot, delta, hdelta, rfl, rfl⟩ := h
    exact ⟨rfl, (chunk.hasAt_append _ _ _).mpr ⟨hasAt_of_u16? hslot, hasAt_of_i16? hdelta⟩, rfl⟩
  · have hread : chunk.operand? offset (.ofInvoke kind) = (do
        let constant ← chunk.u16? (offset + 1)
        let argCount ← chunk.byte? (offset + 3)
        return (.invoke constant argCount, offset + 4)) := by
      cases kind <;> rfl
    simp only [hread, Option.bind_eq_bind, Option.bind_eq_some_iff, Option.pure_def,
      Option.some.injEq, Prod.mk.injEq] at h
    obtain ⟨constant, hconstant, argCount, hcount, rfl, rfl⟩ := h
    exact ⟨⟨kind, rfl⟩, (chunk.hasAt_append _ _ _).mpr
      ⟨hasAt_of_u16? hconstant, hasAt_of_byte? hcount⟩, rfl⟩
  · simp only [operand?, Option.bind_eq_bind, Option.bind_eq_some_iff, Option.pure_def,
      Option.some.injEq, Prod.mk.injEq] at h
    obtain ⟨ty, hty, constructor, hconstructor, argCount, hcount, rfl, rfl⟩ := h
    refine ⟨rfl, (chunk.hasAt_append _ _ _).mpr ⟨hasAt_of_u16? hty, ?_⟩, rfl⟩
    exact (chunk.hasAt_append _ _ _).mpr ⟨hasAt_of_u16? hconstructor, hasAt_of_byte? hcount⟩
  · exact readOperand_of_size_le hsize hswitch h

end Operands

theorem decode?_eq_some {instruction : Instruction} {next : Nat}
    (h : chunk.decode? offset = some (instruction, next)) :
    instruction.offset = offset ∧ next = offset + instruction.size ∧ instruction.WellFormed ∧
      chunk.HasAt offset (instruction.render (storedTarget offset)) := by
  simp only [decode?, op?, Option.bind_eq_bind, Option.bind_eq_some_iff, Option.pure_def,
    Option.some.injEq, Prod.mk.injEq] at h
  obtain ⟨op, ⟨byte, hbyte, hop⟩, ⟨operand, next⟩, hoperand, rfl, rfl⟩ := h
  have hread := readOperand_of_operand? hoperand
  rw [← Opcode.toByte_of_ofByte? hop] at hbyte
  exact ⟨rfl, hread.next_eq, hread.fits, .cons hbyte hread.hasAt⟩

theorem decode?_of_size_le (h : chunk.size ≤ offset) : chunk.decode? offset = none := by
  simp [decode?, op?, byte?, Array.getElem?_eq_none h]

/-- Decoding from `offset` on with a step for every byte that is left: the
instructions tile the bytes they were read from, up to an offset without one. -/
theorem decodeFrom_tiles_bytes (chunk : Chunk) (steps offset : Nat)
    (hsteps : chunk.size ≤ offset + steps) (done : Array Instruction) :
    ∃ code, (chunk.decodeFrom steps offset done).toList = done.toList ++ code ∧
      Tiles offset code ∧ chunk.HasAt offset (renderAll storedTarget code) ∧
      (∀ instruction ∈ code, instruction.WellFormed ∧ chunk.decode? instruction.offset =
        some (instruction, instruction.offset + instruction.size)) ∧
      chunk.decode? (offset + sizeAll code) = none := by
  induction steps generalizing offset done with
  | zero =>
    refine ⟨[], by simp [decodeFrom], trivial, List.nil_prefix, by simp, ?_⟩
    exact decode?_of_size_le hsteps
  | succ steps ih =>
    cases hdecode : chunk.decode? offset with
    | none =>
      refine ⟨[], by simp [decodeFrom, hdecode], trivial, List.nil_prefix, by simp, ?_⟩
      exact hdecode
    | some found =>
      obtain ⟨instruction, next⟩ := found
      obtain ⟨rfl, rfl, hform, hbytes⟩ := decode?_eq_some hdecode
      have hpos := instruction.size_pos
      obtain ⟨code, hcode, htiles, hrest, hread, hend⟩ :=
        ih (instruction.offset + instruction.size) (by omega) (done.push instruction)
      refine ⟨instruction :: code, ?_, ⟨rfl, htiles⟩, ?_, ?_, ?_⟩
      · simp [decodeFrom, hdecode, hcode]
      · refine (chunk.hasAt_append _ _ _).mpr ⟨hbytes, ?_⟩
        rwa [InstructionOf.length_render]
      · exact List.forall_mem_cons.mpr ⟨⟨hform, hdecode⟩, hread⟩
      · rwa [sizeAll, List.map_cons, List.sum_cons, ← Nat.add_assoc]

end Chunk

/-- The length of an instruction follows from its opcode and the counts of a switch. -/
structure InstructionOf.Spans {T : Type} (instruction : InstructionOf T) (length : Nat) :
    Prop where
  fixed : instruction.op.isSwitch = false → length = 1 + instruction.op.operandSize
  table : instruction.op = .tableSwitch → ∃ otherwise low high targets,
    instruction.operand = .table otherwise low high targets ∧
      (length : Int) = 13 + 4 * (high.toInt - low.toInt + 1)
  lookup : instruction.op = .lookupSwitch → ∃ otherwise pairs,
    instruction.operand = .lookup otherwise pairs ∧ length = 9 + 8 * pairs.length

namespace OperandOf

variable {T : Type} {op : Opcode} {operand : OperandOf T}

/-- Only the operands of switches vary in length. -/
theorem Fits.width_eq (h : operand.Fits op) (hswitch : op.isSwitch = false) :
    (operand.pieces.map Piece.width).sum = op.operandSize := by
  cases operand with
  | none => exact h.1.symm
  | byte value => exact Eq.symm h
  | short value => exact Eq.symm h
  | increment slot delta =>
    cases h
    rfl
  | invoke constant argCount =>
    obtain ⟨kind, rfl⟩ := h
    cases kind <;> rfl
  | create ty constructor argCount =>
    cases h
    rfl
  | jump target =>
    have hjump : op.isJump = true := h
    cases op <;> first | rfl | cases hjump
  | table otherwise low high targets =>
    obtain ⟨rfl, -⟩ := h
    cases hswitch
  | lookup otherwise pairs =>
    obtain ⟨rfl, -⟩ := h
    cases hswitch

theorem Fits.table_of_tableSwitch (h : operand.Fits .tableSwitch) :
    ∃ otherwise low high targets, operand = .table otherwise low high targets ∧
      (targets.length : Int) = high.toInt - low.toInt + 1 := by
  cases operand with
  | table otherwise low high targets => exact ⟨otherwise, low, high, targets, rfl, h.2⟩
  | invoke constant argCount =>
    obtain ⟨kind, hkind⟩ := h
    cases kind <;> cases hkind
  | none => cases h.2
  | lookup otherwise pairs => cases h.1
  | _ => cases h

theorem Fits.lookup_of_lookupSwitch (h : operand.Fits .lookupSwitch) :
    ∃ otherwise pairs, operand = .lookup otherwise pairs := by
  cases operand with
  | lookup otherwise pairs => exact ⟨otherwise, pairs, rfl⟩
  | invoke constant argCount =>
    obtain ⟨kind, hkind⟩ := h
    cases kind <;> cases hkind
  | none => cases h.2
  | table otherwise low high targets => cases h.1
  | _ => cases h

end OperandOf

theorem InstructionOf.WellFormed.spans {T : Type} {instruction : InstructionOf T}
    (h : instruction.WellFormed) : instruction.Spans instruction.size := by
  obtain ⟨offset, op, operand⟩ := instruction
  have hfits : operand.Fits op := h
  have hsize : InstructionOf.size ⟨offset, op, operand⟩ =
      1 + (operand.pieces.map Piece.width).sum := rfl
  refine ⟨?_, ?_, ?_⟩
  · intro hswitch
    rw [hsize, hfits.width_eq hswitch]
  · rintro rfl
    obtain ⟨otherwise, low, high, targets, rfl, hcount⟩ := hfits.table_of_tableSwitch
    refine ⟨otherwise, low, high, targets, rfl, ?_⟩
    simp [hsize, OperandOf.pieces, Piece.width, BigEndian.bytes32, Function.comp_def]
    omega
  · rintro rfl
    obtain ⟨otherwise, pairs, rfl⟩ := hfits.lookup_of_lookupSwitch
    refine ⟨otherwise, pairs, rfl, ?_⟩
    simp [hsize, OperandOf.pieces, Piece.width, BigEndian.bytes32, List.map_flatMap,
      Chunk.sum_pair_widths]
    omega

/-- Decoding is faithful on every chunk. The instructions tile its first bytes
without gap or overlap, each is what the decoder reads at its offset and is as
long as its opcode says, and written again they give these bytes. They end at the
end of the chunk or at the first offset without an instruction. -/
theorem instructions_tile_bytes (chunk : Chunk) :
    Tiles 0 chunk.instructions ∧
      (∀ instruction ∈ chunk.instructions,
        chunk.decode? instruction.offset =
          some (instruction, instruction.offset + instruction.size) ∧
        instruction.Spans instruction.size) ∧
      renderAll storedTarget chunk.instructions =
        chunk.bytes.toList.take (sizeAll chunk.instructions) ∧
      (sizeAll chunk.instructions = chunk.size ∨
        sizeAll chunk.instructions < chunk.size ∧
          chunk.decode? (sizeAll chunk.instructions) = none) := by
  obtain ⟨code, hcode, htiles, hbytes, hread, hend⟩ :=
    chunk.decodeFrom_tiles_bytes chunk.size 0 (by omega) #[]
  obtain rfl : chunk.instructions = code := by simpa [Chunk.instructions] using hcode
  have hsize := hbytes.length_le (Nat.zero_le _)
  rw [length_renderAll, Nat.zero_add] at hsize
  rw [Nat.zero_add] at hend
  refine ⟨htiles, fun instruction hmem => ?_, ?_, ?_⟩
  · exact ⟨(hread instruction hmem).2, (hread instruction hmem).1.spans⟩
  · rw [Chunk.HasAt, List.drop_zero, List.prefix_iff_eq_take, length_renderAll] at hbytes
    exact hbytes
  · rcases Nat.eq_or_lt_of_le hsize with heq | hlt
    · exact .inl heq
    · exact .inr ⟨hlt, hend⟩

end StackLowering
