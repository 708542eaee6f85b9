import Mathlib
import StackLowering.Assembler
/-!
How instructions lie in bytes. An instruction is written as an opcode and a
list of pieces, each either bytes that are known at once or a 32-bit jump
target. Reading back bytes that are laid out this way gives the instructions
again, whatever bytes come before and after them.
-/

namespace StackLowering

variable {start : Nat} {rest : List UInt8}

namespace Chunk

/-- The chunk holds `bytes` from `offset` on. -/
def HasAt (chunk : Chunk) (offset : Nat) (bytes : List UInt8) : Prop :=
  bytes <+: chunk.bytes.toList.drop offset

theorem hasAt_append (chunk : Chunk) (offset : Nat) (first second : List UInt8) :
    chunk.HasAt offset (first ++ second) ↔
      chunk.HasAt offset first ∧ chunk.HasAt (offset + first.length) second := by
  unfold HasAt
  rw [← List.drop_drop]
  constructor
  · rintro ⟨rest, hrest⟩
    rw [← hrest]
    refine ⟨⟨second ++ rest, by simp⟩, ⟨rest, by simp⟩⟩
  · rintro ⟨⟨afterFirst, hfirst⟩, ⟨rest, hrest⟩⟩
    rw [← hfirst, List.drop_left] at hrest
    exact ⟨rest, by rw [← hfirst, ← hrest, List.append_assoc]⟩

variable {chunk : Chunk} {offset : Nat}

theorem HasAt.length_le {bytes : List UInt8} (h : chunk.HasAt offset bytes)
    (hoffset : offset ≤ chunk.size) :
    offset + bytes.length ≤ chunk.size := by
  have hlength := List.IsPrefix.length_le h
  simp only [List.length_drop, Array.length_toList] at hlength
  unfold size at hoffset ⊢
  omega

theorem HasAt.byte? {byte : UInt8} (h : chunk.HasAt offset (byte :: rest)) :
    chunk.byte? offset = some byte := by
  obtain ⟨after, hafter⟩ := h
  have hhead : (chunk.bytes.toList.drop offset)[0]? = some byte := by
    rw [← hafter]
    rfl
  simpa [Chunk.byte?] using hhead

theorem HasAt.tail {byte : UInt8} (h : chunk.HasAt offset (byte :: rest)) :
    chunk.HasAt (offset + 1) rest :=
  ((chunk.hasAt_append offset [byte] rest).mp h).2

theorem HasAt.lt_size {byte : UInt8} (h : chunk.HasAt offset (byte :: rest)) :
    offset < chunk.size := by
  have hlength := List.IsPrefix.length_le h
  simp only [List.length_drop, Array.length_toList, List.length_cons] at hlength
  unfold size
  omega

theorem HasAt.op? {op : Opcode} (h : chunk.HasAt offset (op.toByte :: rest)) :
    chunk.op? offset = some op := by
  have hop : Opcode.ofByte? op.toByte = some op := by cases op <;> rfl
  simp [Chunk.op?, h.byte?, hop]

theorem HasAt.u16? {value : UInt16} (h : chunk.HasAt offset (BigEndian.bytes16 value)) :
    chunk.u16? offset = some value := by
  simp only [BigEndian.bytes16] at h
  have hword := BigEndian.word16_bytes16 value
  simp only [Chunk.u16?, h.byte?, h.tail.byte?, Option.pure_def, Option.bind_eq_bind,
    Option.bind_some, hword]

theorem HasAt.i16? {value : Int16} (h : chunk.HasAt offset (BigEndian.bytes16 value.toUInt16)) :
    chunk.i16? offset = some value := by
  simp [Chunk.i16?, h.u16?]

theorem HasAt.i32? {value : Int32} (h : chunk.HasAt offset (BigEndian.bytes32 value.toUInt32)) :
    chunk.i32? offset = some value := by
  simp only [BigEndian.bytes32] at h
  have hword := BigEndian.word32_bytes32 value.toUInt32
  simp only [Chunk.i32?, h.byte?, h.tail.byte?, h.tail.tail.byte?, h.tail.tail.tail.byte?,
    Option.pure_def, Option.bind_eq_bind, Option.bind_some, hword, Int32.toInt32_toUInt32]

theorem HasAt.target? {origin target : Nat} {relative : Int32}
    (h : chunk.HasAt offset (BigEndian.bytes32 relative.toUInt32))
    (hrelative : (origin : Int) + relative.toInt = target) :
    chunk.target? origin offset = some target := by
  simp [Chunk.target?, h.i32?, hrelative]

/-- Items of one width lie at equal distances. -/
theorem HasAt.getElem {α : Type} {width : Nat} {items : List α} {bytes : α → List UInt8}
    (hwidth : ∀ item ∈ items, (bytes item).length = width)
    (h : chunk.HasAt offset (items.flatMap bytes)) (i : Nat) (hi : i < items.length) :
    chunk.HasAt (offset + width * i) (bytes items[i]) := by
  induction items generalizing offset i with
  | nil => simp at hi
  | cons item rest ih =>
    rw [List.flatMap_cons, hasAt_append, hwidth item (by simp)] at h
    cases i with
    | zero => simpa using h.1
    | succ i =>
      have hrest := ih (fun x hx => hwidth x (by simp [hx])) h.2 i (by simpa using hi)
      rw [Nat.mul_succ, Nat.add_comm (width * i), ← Nat.add_assoc]
      simpa using hrest

end Chunk

private theorem mapM_range_eq_some {α : Type} (f : Nat → Option α) (items : List α)
    (h : ∀ i (hi : i < items.length), f i = some items[i]) :
    (List.range items.length).mapM f = some items := by
  induction items generalizing f with
  | nil => rfl
  | cons item rest ih =>
    have htail : (List.range rest.length).mapM (fun i => f (i + 1)) = some rest :=
      ih _ fun i hi => h (i + 1) (by simpa using hi)
    have hhead : f 0 = some item := h 0 (by simp)
    rw [List.length_cons, List.range_succ_eq_map, List.mapM_cons, hhead, List.mapM_map]
    simp [Function.comp_def, htail]

/-- A part of an encoded instruction. -/
inductive Piece (T : Type) where
  | bytes (known : List UInt8)
  /-- A 32-bit operand that holds a jump target. -/
  | target (label : T)

namespace Piece

variable {T : Type}

/-- The bytes of a piece, where `word` gives the stored form of a target. -/
def render (word : T → Int32) : Piece T → List UInt8
  | bytes known => known
  | target label => BigEndian.bytes32 (word label).toUInt32

def width : Piece T → Nat
  | bytes known => known.length
  | target _ => 4

@[simp]
theorem length_render (word : T → Int32) (piece : Piece T) :
    (piece.render word).length = piece.width := by
  cases piece <;> rfl

end Piece

namespace OperandOf

variable {T U : Type}

def map (f : T → U) : OperandOf T → OperandOf U
  | none => none
  | byte value => byte value
  | short value => short value
  | increment slot delta => increment slot delta
  | invoke constant argCount => invoke constant argCount
  | create ty constructor argCount => create ty constructor argCount
  | jump target => jump (f target)
  | table otherwise low high targets => table (f otherwise) low high (targets.map f)
  | lookup otherwise pairs => lookup (f otherwise) (pairs.map fun pair => (pair.1, f pair.2))

/-- The targets in the order they are written. -/
def targets : OperandOf T → List T
  | jump target => [target]
  | table otherwise _ _ targets => otherwise :: targets
  | lookup otherwise pairs => otherwise :: pairs.map Prod.snd
  | _ => []

/-- How an operand is written behind its opcode. -/
def pieces : OperandOf T → List (Piece T)
  | none => []
  | byte value => [.bytes [value]]
  | short value => [.bytes (BigEndian.bytes16 value)]
  | increment slot delta =>
    [.bytes (BigEndian.bytes16 slot), .bytes (BigEndian.bytes16 delta.toUInt16)]
  | invoke constant argCount => [.bytes (BigEndian.bytes16 constant), .bytes [argCount]]
  | create ty constructor argCount =>
    [.bytes (BigEndian.bytes16 ty), .bytes (BigEndian.bytes16 constructor), .bytes [argCount]]
  | jump target => [.target target]
  | table otherwise low high targets =>
    .target otherwise :: .bytes (BigEndian.bytes32 low.toUInt32) ::
      .bytes (BigEndian.bytes32 high.toUInt32) :: targets.map .target
  | lookup otherwise pairs =>
    .target otherwise :: .bytes (BigEndian.bytes32 (Int32.ofNat pairs.length).toUInt32) ::
      pairs.flatMap fun pair => [.bytes (BigEndian.bytes32 pair.1.toUInt32), .target pair.2]

/-- The operand has the form that decoding expects behind the opcode. -/
def Fits (op : Opcode) : OperandOf T → Prop
  | none => op.operandSize = 0 ∧ op.isSwitch = false
  | byte _ => op.operandSize = 1
  | short _ => op.operandSize = 2
  | increment _ _ => op = .incLocal
  | invoke _ _ => ∃ kind, op = .ofInvoke kind
  | create _ _ _ => op = .create
  | jump _ => op.isJump = true
  | table _ low high targets =>
    op = .tableSwitch ∧ (targets.length : Int) = high.toInt - low.toInt + 1
  | lookup _ pairs => op = .lookupSwitch ∧ pairs.length < 2 ^ 31

end OperandOf

namespace InstructionOf

variable {T U : Type}

def map (f : T → U) (instruction : InstructionOf T) : InstructionOf U :=
  ⟨instruction.offset, instruction.op, instruction.operand.map f⟩

/-- The opcode and the operand, as pieces. -/
def pieces (instruction : InstructionOf T) : List (Piece T) :=
  .bytes [instruction.op.toByte] :: instruction.operand.pieces

/-- The bytes of an instruction; `word` gives the stored form of a target. -/
def render (word : T → Int32) (instruction : InstructionOf T) : List UInt8 :=
  instruction.pieces.flatMap (Piece.render word)

def size (instruction : InstructionOf T) : Nat := (instruction.pieces.map Piece.width).sum

/-- The operand has the form that belongs to the opcode. -/
def WellFormed (instruction : InstructionOf T) : Prop :=
  instruction.operand.Fits instruction.op

@[simp]
theorem length_render (word : T → Int32) (instruction : InstructionOf T) :
    (instruction.render word).length = instruction.size := by
  simp [render, size, List.length_flatMap]

theorem size_pos (instruction : InstructionOf T) : 0 < instruction.size := by
  simp only [size, pieces, List.map_cons, List.sum_cons, Piece.width, List.length_singleton]
  omega

end InstructionOf

namespace Chunk

variable {T : Type} {chunk : Chunk} {offset : Nat} {word : T → Int32} {position : T → Nat}

theorem operand?_of_size_le {op : Opcode} (hsize : op.operandSize ≤ 2)
    (hswitch : op.isSwitch = false) :
    chunk.operand? offset op = match op.operandSize with
      | 0 => some (.none, offset + 1)
      | 1 => (chunk.byte? (offset + 1)).map fun byte => (.byte byte, offset + 2)
      | _ => (chunk.u16? (offset + 1)).map fun value => (.short value, offset + 3) := by
  cases op <;> simp [Opcode.operandSize, Opcode.isSwitch] at hsize hswitch <;> rfl

private theorem isSwitch_of_operandSize {op : Opcode} (hsize : 0 < op.operandSize) :
    op.isSwitch = false := by
  cases op <;> simp [Opcode.operandSize, Opcode.isSwitch] at hsize ⊢

private theorem targets?_render {targets : List T} (hstart : start ≤ chunk.size)
    (hbytes : chunk.HasAt start (targets.flatMap fun target =>
      BigEndian.bytes32 (word target).toUInt32))
    (htargets : ∀ target ∈ targets, (offset : Int) + (word target).toInt = position target) :
    chunk.targets? offset start targets.length = some (targets.map position) := by
  have hwidth : ∀ target ∈ targets,
      (BigEndian.bytes32 (word target).toUInt32).length = 4 := fun _ _ => rfl
  have hbound : start + 4 * targets.length ≤ chunk.size := by
    have hle := hbytes.length_le hstart
    simpa [List.length_flatMap, BigEndian.bytes32, Nat.mul_comm] using hle
  have hmap : (List.range (targets.map position).length).mapM
      (fun i => chunk.target? offset (start + 4 * i)) = some (targets.map position) := by
    apply mapM_range_eq_some
    intro i hi
    rw [List.length_map] at hi
    rw [List.getElem_map]
    exact (hbytes.getElem hwidth i hi).target? (htargets _ (List.getElem_mem hi))
  rw [List.length_map] at hmap
  rw [targets?, if_pos hbound, hmap]

private theorem pairs?_render {pairs : List (Int32 × T)} (hstart : start ≤ chunk.size)
    (hbytes : chunk.HasAt start (pairs.flatMap fun pair =>
      BigEndian.bytes32 pair.1.toUInt32 ++ BigEndian.bytes32 (word pair.2).toUInt32))
    (htargets : ∀ pair ∈ pairs, (offset : Int) + (word pair.2).toInt = position pair.2) :
    chunk.pairs? offset start pairs.length =
      some (pairs.map fun pair => (pair.1, position pair.2)) := by
  have hwidth : ∀ pair ∈ pairs, (BigEndian.bytes32 pair.1.toUInt32 ++
      BigEndian.bytes32 (word pair.2).toUInt32).length = 8 := fun _ _ => rfl
  have hbound : start + 8 * pairs.length ≤ chunk.size := by
    have hle := hbytes.length_le hstart
    simpa [List.length_flatMap, BigEndian.bytes32, Nat.mul_comm] using hle
  have hmap : (List.range (pairs.map fun pair => (pair.1, position pair.2)).length).mapM
      (fun i => do
        let key ← chunk.i32? (start + 8 * i)
        let target ← chunk.target? offset (start + 8 * i + 4)
        return (key, target)) = some (pairs.map fun pair => (pair.1, position pair.2)) := by
    apply mapM_range_eq_some
    intro i hi
    rw [List.length_map] at hi
    have hpair := (hasAt_append _ _ _ _).mp (hbytes.getElem hwidth i hi)
    have htarget := hpair.2.target? (htargets _ (List.getElem_mem hi))
    simp only [BigEndian.bytes32, List.length_cons, List.length_nil] at htarget
    simp [hpair.1.i32?, htarget]
  rw [List.length_map] at hmap
  rw [pairs?, if_pos hbound, hmap]

theorem sum_pair_widths {α : Type} (pairs : List α) :
    (pairs.flatMap fun _ => [4, 4]).sum = 8 * pairs.length := by
  induction pairs with
  | nil => rfl
  | cons pair rest ih =>
    simp only [List.flatMap_cons, List.sum_append, ih, List.length_cons]
    simp
    omega

/-- An operand is read back from its bytes, which lie behind the opcode. -/
theorem operand?_render {op : Opcode} {operand : OperandOf T} (hform : operand.Fits op)
    (hbytes : chunk.HasAt (offset + 1) (operand.pieces.flatMap (Piece.render word)))
    (htargets : ∀ target ∈ operand.targets,
      (offset : Int) + (word target).toInt = position target) :
    chunk.operand? offset op =
      some (operand.map position, offset + (1 + (operand.pieces.map Piece.width).sum)) := by
  cases operand with
  | none =>
    obtain ⟨hsize, hswitch⟩ := hform
    rw [operand?_of_size_le (by omega) hswitch, hsize]
    rfl
  | byte value =>
    have hsize : op.operandSize = 1 := hform
    rw [operand?_of_size_le (by omega) (isSwitch_of_operandSize (by omega)), hsize]
    have hbyte : chunk.byte? (offset + 1) = some value := hbytes.byte?
    simp [hbyte, OperandOf.map, OperandOf.pieces, Piece.width]
  | short value =>
    have hsize : op.operandSize = 2 := hform
    rw [operand?_of_size_le (by omega) (isSwitch_of_operandSize (by omega)), hsize]
    have hword : chunk.u16? (offset + 1) = some value := HasAt.u16? hbytes
    simp [hword, OperandOf.map, OperandOf.pieces, Piece.width, BigEndian.bytes16]
  | increment slot delta =>
    obtain rfl : op = .incLocal := hform
    obtain ⟨hslot, hdelta⟩ := (hasAt_append _ _ (BigEndian.bytes16 slot) _).mp hbytes
    have hdelta : chunk.i16? (offset + 3) = some delta := HasAt.i16? hdelta
    simp [operand?, hslot.u16?, hdelta, OperandOf.map, OperandOf.pieces, Piece.width,
      BigEndian.bytes16]
  | invoke constant argCount =>
    obtain ⟨kind, rfl⟩ := hform
    obtain ⟨hconstant, hcount⟩ := (hasAt_append _ _ (BigEndian.bytes16 constant) _).mp hbytes
    have hcount : chunk.byte? (offset + 3) = some argCount := HasAt.byte? hcount
    cases kind <;>
      simp [Opcode.ofInvoke, operand?, hconstant.u16?, hcount, OperandOf.map,
        OperandOf.pieces, Piece.width, BigEndian.bytes16]
  | create ty constructor argCount =>
    obtain rfl : op = .create := hform
    obtain ⟨hty, hrest⟩ := (hasAt_append _ _ (BigEndian.bytes16 ty) _).mp hbytes
    obtain ⟨hconstructor, hcount⟩ :=
      (hasAt_append _ _ (BigEndian.bytes16 constructor) _).mp hrest
    have hconstructor : chunk.u16? (offset + 3) = some constructor := hconstructor.u16?
    have hcount : chunk.byte? (offset + 5) = some argCount := HasAt.byte? hcount
    simp [operand?, hty.u16?, hconstructor, hcount, OperandOf.map, OperandOf.pieces,
      Piece.width, BigEndian.bytes16]
  | jump target =>
    have htarget : chunk.target? offset (offset + 1) = some (position target) :=
      HasAt.target? hbytes (htargets target (by simp [OperandOf.targets]))
    have hjump : op = .jump ∨ op = .jumpIfFalse ∨ op = .jumpIfTrue := by
      cases op <;> simp [OperandOf.Fits, Opcode.isJump] at hform ⊢
    obtain rfl | rfl | rfl := hjump <;>
      simp [operand?, htarget, OperandOf.map, OperandOf.pieces, Piece.width]
  | table otherwise low high targets =>
    obtain ⟨rfl, hcount⟩ := hform
    have hlayout : (OperandOf.table otherwise low high targets).pieces.flatMap
        (Piece.render word) = BigEndian.bytes32 (word otherwise).toUInt32 ++
          (BigEndian.bytes32 low.toUInt32 ++ (BigEndian.bytes32 high.toUInt32 ++
            targets.flatMap fun target => BigEndian.bytes32 (word target).toUInt32)) := by
      simp [OperandOf.pieces, Piece.render, List.flatMap_cons, List.flatMap_map]
    rw [hlayout] at hbytes
    obtain ⟨hotherwise, hrest⟩ := (hasAt_append _ _ _ _).mp hbytes
    obtain ⟨hlow, hrest⟩ := (hasAt_append _ _ _ _).mp hrest
    obtain ⟨hhigh, hrest⟩ := (hasAt_append _ _ _ _).mp hrest
    have hotherwise : chunk.target? offset (offset + 1) = some (position otherwise) :=
      hotherwise.target? (htargets otherwise (by simp [OperandOf.targets]))
    have hlow : chunk.i32? (offset + 5) = some low := hlow.i32?
    have hstart : offset + 13 ≤ chunk.size := hhigh.length_le (hhigh.lt_size.le)
    have hhigh : chunk.i32? (offset + 9) = some high := hhigh.i32?
    have htable : chunk.targets? offset (offset + 13) targets.length =
        some (targets.map position) := by
      apply targets?_render hstart
      · exact hrest
      · intro target htarget
        exact htargets target (by simp [OperandOf.targets, htarget])
    have hlength : (high.toInt - low.toInt + 1).toNat = targets.length := by omega
    have hnonneg : ¬ high.toInt - low.toInt + 1 < 0 := by omega
    simp only [operand?, tableOperand?, hotherwise, hlow, hhigh, Option.bind_eq_bind,
      Option.bind_some, hnonneg, if_false, hlength, htable]
    simp [OperandOf.map, OperandOf.pieces, Piece.width, BigEndian.bytes32, Function.comp_def]
    omega
  | lookup otherwise pairs =>
    obtain ⟨rfl, hcount⟩ := hform
    have hlayout : (OperandOf.lookup otherwise pairs).pieces.flatMap (Piece.render word) =
        BigEndian.bytes32 (word otherwise).toUInt32 ++
          (BigEndian.bytes32 (Int32.ofNat pairs.length).toUInt32 ++
            pairs.flatMap fun pair => BigEndian.bytes32 pair.1.toUInt32 ++
              BigEndian.bytes32 (word pair.2).toUInt32) := by
      simp [OperandOf.pieces, Piece.render, List.flatMap_cons, List.flatMap_assoc]
    rw [hlayout] at hbytes
    obtain ⟨hotherwise, hrest⟩ := (hasAt_append _ _ _ _).mp hbytes
    obtain ⟨hlength, hrest⟩ := (hasAt_append _ _ _ _).mp hrest
    have hotherwise : chunk.target? offset (offset + 1) = some (position otherwise) :=
      hotherwise.target? (htargets otherwise (by simp [OperandOf.targets]))
    have hstart : offset + 9 ≤ chunk.size := hlength.length_le (hlength.lt_size.le)
    have hlength : chunk.i32? (offset + 5) = some (Int32.ofNat pairs.length) := hlength.i32?
    have hpairs : chunk.pairs? offset (offset + 9) pairs.length =
        some (pairs.map fun pair => (pair.1, position pair.2)) := by
      apply pairs?_render hstart
      · exact hrest
      · intro pair hpair
        exact htargets pair.2 (by
          simp only [OperandOf.targets, List.mem_cons, List.mem_map]
          exact Or.inr ⟨pair, hpair, rfl⟩)
    have hint : (Int32.ofNat pairs.length).toInt = pairs.length :=
      Int32.toInt_ofNat_of_lt hcount
    have hnonneg : ¬ (pairs.length : Int) < 0 := by omega
    simp only [operand?, lookupOperand?, hotherwise, hlength, hint, Option.bind_eq_bind,
      Option.bind_some, hnonneg, if_false, Int.toNat_natCast, hpairs]
    simp [OperandOf.map, OperandOf.pieces, Piece.width, BigEndian.bytes32, List.map_flatMap,
      sum_pair_widths]
    omega

/-- An instruction is read back from its bytes when its targets are stored
relative to its offset. -/
theorem decode?_render {instruction : InstructionOf T} (hform : instruction.WellFormed)
    (hbytes : chunk.HasAt instruction.offset (instruction.render word))
    (htargets : ∀ target ∈ instruction.operand.targets,
      (instruction.offset : Int) + (word target).toInt = position target) :
    chunk.decode? instruction.offset =
      some (instruction.map position, instruction.offset + instruction.size) := by
  have hcons : chunk.HasAt instruction.offset (instruction.op.toByte ::
      instruction.operand.pieces.flatMap (Piece.render word)) := hbytes
  have hoperand := operand?_render hform hcons.tail htargets
  simp only [decode?, hcons.op?, hoperand, Option.bind_eq_bind, Option.bind_some, Option.pure_def]
  rfl

theorem decode?_size : chunk.decode? chunk.size = none := by
  simp [decode?, op?, byte?, size]

end Chunk

/-- The instructions follow each other without a gap from `start` on. -/
def Tiles {T : Type} : Nat → List (InstructionOf T) → Prop
  | _, [] => True
  | start, instruction :: rest =>
    instruction.offset = start ∧ Tiles (start + instruction.size) rest

/-- The bytes of a list of instructions; `word` stores a target relative to the
offset of its instruction. -/
def renderAll {T : Type} (word : Nat → T → Int32) (code : List (InstructionOf T)) : List UInt8 :=
  code.flatMap fun instruction => instruction.render (word instruction.offset)

def sizeAll {T : Type} (code : List (InstructionOf T)) : Nat :=
  (code.map InstructionOf.size).sum

section Tiling

variable {T : Type} {chunk : Chunk} {word : Nat → T → Int32} {position : T → Nat}

@[simp]
theorem length_renderAll (word : Nat → T → Int32) (code : List (InstructionOf T)) :
    (renderAll word code).length = sizeAll code := by
  simp [renderAll, sizeAll, List.length_flatMap]

theorem length_le_sizeAll (code : List (InstructionOf T)) : code.length ≤ sizeAll code := by
  induction code with
  | nil => simp
  | cons instruction rest ih =>
    have hpos := instruction.size_pos
    simp only [sizeAll, List.length_cons, List.map_cons, List.sum_cons] at ih ⊢
    omega

theorem tiles_append {first second : List (InstructionOf T)} :
    Tiles start (first ++ second) ↔ Tiles start first ∧ Tiles (start + sizeAll first) second := by
  induction first generalizing start with
  | nil => simp [Tiles, sizeAll]
  | cons instruction rest ih =>
    simp only [List.cons_append, Tiles, ih, sizeAll, List.map_cons, List.sum_cons, and_assoc,
      Nat.add_assoc]

theorem hasAt_of_tiles {code : List (InstructionOf T)} (htiles : Tiles start code)
    (hbytes : chunk.HasAt start (renderAll word code)) (instruction : InstructionOf T)
    (hmem : instruction ∈ code) :
    chunk.HasAt instruction.offset (instruction.render (word instruction.offset)) := by
  induction code generalizing start with
  | nil => simp at hmem
  | cons first rest ih =>
    obtain ⟨rfl, hrest⟩ := htiles
    obtain ⟨hfirst, hbytes⟩ := (chunk.hasAt_append _ _ _).mp hbytes
    rw [InstructionOf.length_render] at hbytes
    rcases List.mem_cons.mp hmem with rfl | hmem
    · exact hfirst
    · exact ih hrest hbytes hmem

private theorem decodeFrom_tiles {steps : Nat} {code : List (InstructionOf T)}
    (htiles : Tiles start code) (hsteps : code.length ≤ steps)
    (hend : start + sizeAll code = chunk.size)
    (hdecode : ∀ instruction ∈ code, chunk.decode? instruction.offset =
      some (instruction.map position, instruction.offset + instruction.size))
    (done : Array Instruction) :
    (chunk.decodeFrom steps start done).toList =
      done.toList ++ code.map (InstructionOf.map position) := by
  induction code generalizing steps start done with
  | nil =>
    obtain rfl : start = chunk.size := by simpa [sizeAll] using hend
    cases steps with
    | zero => simp [Chunk.decodeFrom]
    | succ steps => simp [Chunk.decodeFrom, chunk.decode?_size]
  | cons instruction rest ih =>
    obtain ⟨rfl, hrest⟩ := htiles
    cases steps with
    | zero => simp at hsteps
    | succ steps =>
      have hnext := ih hrest (by simpa using hsteps)
        (by simpa [sizeAll, Nat.add_assoc] using hend)
        (fun i hi => hdecode i (by simp [hi]))
        (done.push (instruction.map position))
      simp only [Chunk.decodeFrom, hdecode instruction (by simp)]
      rw [hnext]
      simp

/-- Reading a chunk that consists of well-formed instructions gives these
instructions, each target being the position it was stored for. -/
theorem instructions_of_tiles {code : List (InstructionOf T)} (htiles : Tiles 0 code)
    (hform : ∀ instruction ∈ code, instruction.WellFormed)
    (hbytes : chunk.bytes.toList = renderAll word code)
    (htargets : ∀ instruction ∈ code, ∀ target ∈ instruction.operand.targets,
      (instruction.offset : Int) + (word instruction.offset target).toInt = position target) :
    chunk.instructions = code.map (InstructionOf.map position) ∧
      ∀ instruction ∈ code, chunk.decode? instruction.offset =
        some (instruction.map position, instruction.offset + instruction.size) := by
  have hat : chunk.HasAt 0 (renderAll word code) := by
    simp [Chunk.HasAt, hbytes]
  have hsize : sizeAll code = chunk.size := by
    rw [← length_renderAll word code, ← hbytes, Array.length_toList]
    rfl
  have hdecode : ∀ instruction ∈ code, chunk.decode? instruction.offset =
      some (instruction.map position, instruction.offset + instruction.size) := by
    intro instruction hmem
    exact Chunk.decode?_render (hform instruction hmem)
      (hasAt_of_tiles htiles hat instruction hmem) (htargets instruction hmem)
  refine ⟨?_, hdecode⟩
  have hlength := length_le_sizeAll code
  rw [Chunk.instructions, decodeFrom_tiles htiles (by omega) (by omega) hdecode]
  simp

end Tiling

end StackLowering
