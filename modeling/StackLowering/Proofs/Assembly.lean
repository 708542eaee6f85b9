import StackLowering.Proofs.Encoding
/-!
What an assembler holds. While code is written, the chunk consists of complete
instructions whose targets are still zero, and the fixups are exactly these
targets. Finishing fills in every target, so the finished chunk reads back as
the instructions that were written.
-/

namespace StackLowering

theorem bind_eq_ok {ε α β : Type} {first : Except ε α} {next : α → Except ε β} {result : β} :
    (first >>= next) = .ok result ↔ ∃ value, first = .ok value ∧ next value = .ok result := by
  cases first with
  | error fault => simp [bind, Except.bind]
  | ok value => simp [bind, Except.bind]

variable {chunk patched : Chunk} {label : Label} {origin : Nat} {before after : List UInt8}
  {fixup : Fixup} {pieces : List (Piece Label)}

namespace Chunk

theorem overwrite_eq {old new : List UInt8} (hbytes : chunk.bytes.toList = before ++ old ++ after)
    (hlength : old.length = new.length) :
    (chunk.overwrite before.length new).bytes.toList = before ++ new ++ after := by
  induction new generalizing chunk before old with
  | nil =>
    obtain rfl := List.length_eq_zero_iff.mp hlength
    exact hbytes
  | cons byte rest ih =>
    cases old with
    | nil => simp at hlength
    | cons first old =>
      have hset : (Chunk.mk (chunk.bytes.setIfInBounds before.length byte)).bytes.toList =
          (before ++ [byte]) ++ old ++ after := by
        simp [hbytes]
      have hrest := ih hset (by simpa using hlength)
      rw [List.length_append, List.length_singleton] at hrest
      simpa [overwrite] using hrest

theorem patchI32_eq {old new : Int32}
    (hbytes : chunk.bytes.toList = before ++ BigEndian.bytes32 old.toUInt32 ++ after) :
    (chunk.patchI32 before.length new).bytes.toList =
      before ++ BigEndian.bytes32 new.toUInt32 ++ after :=
  overwrite_eq hbytes rfl

end Chunk

/-- The fixups of the pieces of an instruction at `origin`, from `site` on. -/
def fixupsFrom (origin : Nat) : Nat → List (Piece Label) → List Fixup
  | _, [] => []
  | site, .bytes known :: rest => fixupsFrom origin (site + known.length) rest
  | site, .target label :: rest => ⟨label, site, origin⟩ :: fixupsFrom origin (site + 4) rest

def InstructionOf.fixups (instruction : InstructionOf Label) : List Fixup :=
  fixupsFrom instruction.offset instruction.offset instruction.pieces

namespace Assembler

/-- Write a piece of an instruction that lies at `origin`. -/
def writePiece (origin : Nat) (asm : Assembler) : Piece Label → Assembler
  | .bytes known => asm.onChunk (·.writeBytes known)
  | .target label => asm.target label origin

/-- Write an instruction. -/
def place (op : Opcode) (operand : OperandOf Label) (asm : Assembler) : Assembler :=
  (Piece.bytes [op.toByte] :: operand.pieces).foldl (writePiece asm.offset) asm

section Emitters

variable (asm : Assembler)

theorem opByte_eq_place (op : Opcode) (byte : UInt8) :
    asm.opByte op byte = asm.place op (.byte byte) := rfl

theorem opU16_eq_place (op : Opcode) (value : UInt16) :
    asm.opU16 op value = asm.place op (.short value) := rfl

theorem tableSwitch_eq_place (low high : Int32) (otherwise : Label) (targets : List Label) :
    asm.tableSwitch low high otherwise targets =
      asm.place .tableSwitch (.table otherwise low high targets) := by
  simp only [place, OperandOf.pieces, List.foldl_cons, List.foldl_map]
  rfl

theorem lookupSwitch_eq_place (otherwise : Label) (pairs : List (Int32 × Label)) :
    asm.lookupSwitch otherwise pairs = asm.place .lookupSwitch (.lookup otherwise pairs) := by
  simp only [place, OperandOf.pieces, List.foldl_cons, List.foldl_flatMap]
  rfl

end Emitters

@[simp]
theorem chunk_foldl_writePiece (origin : Nat) (pieces : List (Piece Label)) (asm : Assembler) :
    (pieces.foldl (writePiece origin) asm).chunk.bytes.toList =
      asm.chunk.bytes.toList ++ pieces.flatMap (Piece.render fun _ => 0) := by
  induction pieces generalizing asm with
  | nil => simp
  | cons piece rest ih =>
    rw [List.foldl_cons, ih, List.flatMap_cons, ← List.append_assoc]
    cases piece <;> simp [writePiece, onChunk, target, Chunk.writeI32, Piece.render]

theorem fixups_foldl_writePiece (origin : Nat) (pieces : List (Piece Label)) (asm : Assembler) :
    (pieces.foldl (writePiece origin) asm).fixups.toList =
      asm.fixups.toList ++ fixupsFrom origin asm.offset pieces := by
  induction pieces generalizing asm with
  | nil => simp [fixupsFrom]
  | cons piece rest ih =>
    have hoffset : (writePiece origin asm piece).offset = asm.offset + piece.width := by
      have hchunk := congrArg List.length (chunk_foldl_writePiece origin [piece] asm)
      simpa [offset, Chunk.size] using hchunk
    rw [List.foldl_cons, ih, hoffset]
    cases piece <;> simp [writePiece, onChunk, target, fixupsFrom, Piece.width]

theorem foldl_writePiece_eq (origin : Nat) (pieces : List (Piece Label)) (asm : Assembler) :
    pieces.foldl (writePiece origin) asm =
      { asm with
        chunk := (pieces.foldl (writePiece origin) asm).chunk
        fixups := (pieces.foldl (writePiece origin) asm).fixups } := by
  induction pieces generalizing asm with
  | nil => rfl
  | cons piece rest ih =>
    rw [List.foldl_cons, ih]
    cases piece <;> rfl

/-- The assembler has written exactly `code`, all of whose targets are open. -/
structure Holds (asm : Assembler) (code : List (InstructionOf Label)) : Prop where
  bytes : asm.chunk.bytes.toList = renderAll (fun _ _ => 0) code
  fixups : asm.fixups.toList = code.flatMap InstructionOf.fixups
  tiles : Tiles 0 code
  form : ∀ instruction ∈ code, instruction.WellFormed

theorem holds_new (pool : Pool) : (Assembler.new pool).Holds [] where
  bytes := rfl
  fixups := rfl
  tiles := trivial
  form := by simp

variable {code : List (InstructionOf Label)}

theorem Holds.offset_eq {asm : Assembler} (h : asm.Holds code) : asm.offset = sizeAll code := by
  have hlength := congrArg List.length h.bytes
  simpa [offset, Chunk.size] using hlength

theorem Holds.congr {asm other : Assembler} (h : asm.Holds code) (hchunk : other.chunk = asm.chunk)
    (hfixups : other.fixups = asm.fixups) : other.Holds code where
  bytes := by rw [hchunk, h.bytes]
  fixups := by rw [hfixups, h.fixups]
  tiles := h.tiles
  form := h.form

/-- Writing an instruction appends it. -/
theorem Holds.place {asm : Assembler} (h : asm.Holds code) {op : Opcode} {operand : OperandOf Label}
    (hform : operand.Fits op) :
    (asm.place op operand).Holds (code ++ [⟨asm.offset, op, operand⟩]) where
  bytes := by
    rw [Assembler.place, chunk_foldl_writePiece, h.bytes]
    simp [renderAll, InstructionOf.render, InstructionOf.pieces]
  fixups := by
    rw [Assembler.place, fixups_foldl_writePiece, h.fixups]
    simp [InstructionOf.fixups, InstructionOf.pieces]
  tiles := by
    rw [tiles_append]
    exact ⟨h.tiles, by rw [Nat.zero_add, h.offset_eq], trivial⟩
  form := by
    intro instruction hmem
    rcases List.mem_append.mp hmem with hmem | hmem
    · exact h.form instruction hmem
    · rw [List.mem_singleton.mp hmem]
      exact hform

/-- A fixup can be filled in: its label is bound, at a distance that fits 32 bits. -/
def Resolvable (asm : Assembler) (label : Label) (origin : Nat) : Prop :=
  ∃ position, asm.position? label = some position ∧
    -2147483648 ≤ (position : Int) - origin ∧ (position : Int) - origin ≤ 2147483647

/-- What is stored for a label in an instruction at `origin`. -/
def relative (asm : Assembler) (origin : Nat) (label : Label) : Int32 :=
  Int32.ofInt ((asm.position? label).getD 0 - origin)

theorem Resolvable.toInt_relative {asm : Assembler} (h : asm.Resolvable label origin) :
    (origin : Int) + (asm.relative origin label).toInt = (asm.position? label).getD 0 := by
  obtain ⟨position, hposition, hlow, hhigh⟩ := h
  rw [relative, hposition, Option.getD_some, Int32.toInt_ofInt_of_le (by omega) (by omega)]
  omega

theorem applyFixup_eq_ok {asm : Assembler} (h : asm.applyFixup chunk fixup = .ok patched) :
    asm.Resolvable fixup.label fixup.origin ∧
      patched = chunk.patchI32 fixup.site (asm.relative fixup.origin fixup.label) := by
  obtain ⟨position, hposition, h⟩ := bind_eq_ok.mp h
  have hposition : asm.position? fixup.label = some position := by
    unfold requirePosition at hposition
    split at hposition
    next found hfound => rw [hfound, Except.ok.inj hposition]
    next => cases hposition
  dsimp only at h
  split at h
  next hrange =>
    refine ⟨⟨position, hposition, hrange⟩, ?_⟩
    rw [relative, hposition, Option.getD_some]
    exact (Except.ok.inj h).symm
  next => cases h

theorem applyFixup_of_resolvable {asm : Assembler} (h : asm.Resolvable fixup.label fixup.origin)
    (chunk : Chunk) :
    ∃ patched, asm.applyFixup chunk fixup = .ok patched := by
  obtain ⟨position, hposition, hrange⟩ := h
  refine ⟨chunk.patchI32 fixup.site (Int32.ofInt (position - fixup.origin)), ?_⟩
  refine bind_eq_ok.mpr ⟨position, by rw [requirePosition, hposition], ?_⟩
  exact if_pos hrange

theorem foldlM_applyFixup_isOk {asm : Assembler} (fixups : List Fixup) (chunk : Chunk) :
    (∃ patched, fixups.foldlM asm.applyFixup chunk = .ok patched) ↔
      ∀ fixup ∈ fixups, asm.Resolvable fixup.label fixup.origin := by
  induction fixups generalizing chunk with
  | nil => simp [pure, Except.pure]
  | cons fixup rest ih =>
    simp only [List.foldlM_cons, List.forall_mem_cons]
    constructor
    · rintro ⟨patched, h⟩
      obtain ⟨next, hfirst, hrest⟩ := bind_eq_ok.mp h
      exact ⟨(applyFixup_eq_ok hfirst).1, (ih next).mp ⟨patched, hrest⟩⟩
    · rintro ⟨hfirst, hrest⟩
      obtain ⟨next, hnext⟩ := applyFixup_of_resolvable hfirst chunk
      obtain ⟨patched, hpatched⟩ := (ih next).mpr hrest
      exact ⟨patched, bind_eq_ok.mpr ⟨next, hnext, hpatched⟩⟩

/-- Filling in the fixups of some pieces replaces their zeros by the stored
forms of their labels. -/
theorem foldlM_fixupsFrom {asm : Assembler} (hbytes : chunk.bytes.toList =
      before ++ pieces.flatMap (Piece.render fun _ => 0) ++ after)
    (hpatched : (fixupsFrom origin before.length pieces).foldlM asm.applyFixup chunk =
      .ok patched) :
    patched.bytes.toList =
      before ++ pieces.flatMap (Piece.render (asm.relative origin)) ++ after := by
  induction pieces generalizing chunk before with
  | nil =>
    obtain rfl : chunk = patched := Except.ok.inj hpatched
    exact hbytes
  | cons piece rest ih =>
    cases piece with
    | bytes known =>
      have hrest : chunk.bytes.toList = (before ++ known) ++
          rest.flatMap (Piece.render fun _ => 0) ++ after := by
        rw [hbytes]
        simp [Piece.render]
      have hdone := ih hrest (by simpa [fixupsFrom] using hpatched)
      rw [hdone]
      simp [Piece.render]
    | target label =>
      rw [fixupsFrom, List.foldlM_cons] at hpatched
      obtain ⟨next, hfirst, hpatched⟩ := bind_eq_ok.mp hpatched
      have hnext := (applyFixup_eq_ok hfirst).2
      have hword : chunk.bytes.toList = before ++ BigEndian.bytes32 (0 : Int32).toUInt32 ++
          (rest.flatMap (Piece.render fun _ => 0) ++ after) := by
        rw [hbytes]
        simp [Piece.render]
      have hrest : next.bytes.toList =
          (before ++ BigEndian.bytes32 (asm.relative origin label).toUInt32) ++
            rest.flatMap (Piece.render fun _ => 0) ++ after := by
        rw [hnext, Chunk.patchI32_eq hword]
        simp
      have hdone := ih hrest (by simpa [BigEndian.bytes32] using hpatched)
      rw [hdone]
      simp [Piece.render]

theorem foldlM_fixups {asm : Assembler} (before : List UInt8) (htiles : Tiles before.length code)
    (hbytes : chunk.bytes.toList = before ++ renderAll (fun _ _ => 0) code)
    (hpatched : (code.flatMap InstructionOf.fixups).foldlM asm.applyFixup chunk = .ok patched) :
    patched.bytes.toList = before ++ renderAll asm.relative code := by
  induction code generalizing chunk before with
  | nil =>
    obtain rfl : chunk = patched := Except.ok.inj hpatched
    exact hbytes
  | cons instruction rest ih =>
    obtain ⟨hoffset, hrest⟩ := htiles
    rw [List.flatMap_cons, List.foldlM_append] at hpatched
    obtain ⟨next, hfirst, hpatched⟩ := bind_eq_ok.mp hpatched
    rw [InstructionOf.fixups, hoffset] at hfirst
    have hfirst := foldlM_fixupsFrom
      (by simpa [renderAll, InstructionOf.render] using hbytes) hfirst
    have hlength : (before ++ instruction.render (asm.relative instruction.offset)).length =
        before.length + instruction.size := by simp
    have hnext := ih _ (by rw [hlength]; exact hrest)
      (by rw [hfirst]; simp [renderAll, InstructionOf.render, hoffset]) hpatched
    rw [hnext]
    simp [renderAll]

/-- The position of a label in finished code. -/
def positionOf (asm : Assembler) (label : Label) : Nat := (asm.position? label).getD 0

theorem mem_fixupsFrom {site : Nat} (h : fixup ∈ fixupsFrom origin site pieces) :
    fixup.origin = origin ∧ Piece.target fixup.label ∈ pieces := by
  induction pieces generalizing site with
  | nil => simp [fixupsFrom] at h
  | cons piece rest ih =>
    cases piece with
    | bytes known =>
      obtain ⟨horigin, hmem⟩ := ih h
      exact ⟨horigin, List.mem_cons_of_mem _ hmem⟩
    | target label =>
      rcases List.mem_cons.mp h with rfl | h
      · exact ⟨rfl, List.mem_cons_self⟩
      · obtain ⟨horigin, hmem⟩ := ih h
        exact ⟨horigin, List.mem_cons_of_mem _ hmem⟩

theorem exists_fixup_of_target {site : Nat} (h : Piece.target label ∈ pieces) :
    ∃ fixup ∈ fixupsFrom origin site pieces, fixup.label = label ∧ fixup.origin = origin := by
  induction pieces generalizing site with
  | nil => simp at h
  | cons piece rest ih =>
    rcases List.mem_cons.mp h with heq | hmem
    · rw [← heq]
      exact ⟨⟨label, site, origin⟩, List.mem_cons_self, rfl, rfl⟩
    · cases piece with
      | bytes known => exact ih hmem
      | target other =>
        obtain ⟨fixup, hfound, hfixup⟩ :
            ∃ fixup ∈ fixupsFrom origin (site + 4) rest,
              fixup.label = label ∧ fixup.origin = origin := ih hmem
        exact ⟨fixup, List.mem_cons_of_mem _ hfound, hfixup⟩

theorem target_mem_pieces {instruction : InstructionOf Label} :
    Piece.target label ∈ instruction.pieces ↔ label ∈ instruction.operand.targets := by
  obtain ⟨offset, op, operand⟩ := instruction
  cases operand <;> simp [InstructionOf.pieces, OperandOf.pieces, OperandOf.targets]

/-- The fixups of held code are the targets of its instructions. -/
theorem Holds.forall_fixups {asm : Assembler} (h : asm.Holds code) (P : Label → Nat → Prop) :
    (∀ fixup ∈ asm.fixups.toList, P fixup.label fixup.origin) ↔
      ∀ instruction ∈ code, ∀ target ∈ instruction.operand.targets,
        P target instruction.offset := by
  rw [h.fixups]
  constructor
  · intro hall instruction hmem target htarget
    obtain ⟨fixup, hfixup, hlabel, horigin⟩ :=
      exists_fixup_of_target (target_mem_pieces.mpr htarget)
    have hP := hall fixup (List.mem_flatMap.mpr ⟨instruction, hmem, hfixup⟩)
    rwa [hlabel, horigin] at hP
  · intro hall fixup hmem
    obtain ⟨instruction, hinstruction, hfixup⟩ := List.mem_flatMap.mp hmem
    obtain ⟨horigin, htarget⟩ := mem_fixupsFrom hfixup
    rw [horigin]
    exact hall instruction hinstruction fixup.label (target_mem_pieces.mp htarget)

end Assembler

def Region.labels (region : Region) : List Label := [region.start, region.stop, region.handler]

namespace Assembler

variable {asm : Assembler}

theorem requirePosition_eq_ok {position : Nat} :
    asm.requirePosition label = .ok position ↔ asm.position? label = some position := by
  unfold requirePosition
  cases asm.position? label <;> simp

theorem resolveRegion_eq_ok {region : Region} {entry : Option ExceptionEntry} :
    asm.resolveRegion region = .ok entry ↔
      ∃ start stop handler, asm.position? region.start = some start ∧
        asm.position? region.stop = some stop ∧ asm.position? region.handler = some handler ∧
        entry = if start < stop then some ⟨start, stop, handler, region.catches⟩ else none := by
  simp only [resolveRegion, bind_eq_ok, requirePosition_eq_ok]
  constructor
  · rintro ⟨start, hstart, stop, hstop, handler, hhandler, h⟩
    exact ⟨start, stop, handler, hstart, hstop, hhandler, (Except.ok.inj h).symm⟩
  · rintro ⟨start, stop, handler, hstart, hstop, hhandler, rfl⟩
    exact ⟨start, hstart, stop, hstop, handler, hhandler, rfl⟩

theorem mapM_resolveRegion_isOk (regions : List Region) :
    (∃ entries, regions.mapM asm.resolveRegion = .ok entries) ↔
      ∀ region ∈ regions, ∀ label ∈ region.labels, (asm.position? label).isSome := by
  induction regions with
  | nil => simp [pure, Except.pure]
  | cons region rest ih =>
    simp only [List.mapM_cons, bind_eq_ok, List.forall_mem_cons, ← ih]
    constructor
    · rintro ⟨_, entry, hentry, entries, hentries, _⟩
      obtain ⟨start, stop, handler, hstart, hstop, hhandler, _⟩ := resolveRegion_eq_ok.mp hentry
      exact ⟨by simp [Region.labels, hstart, hstop, hhandler], entries, hentries⟩
    · rintro ⟨hbound, entries, hentries⟩
      simp only [Region.labels, List.forall_mem_cons, Option.isSome_iff_exists] at hbound
      obtain ⟨⟨start, hstart⟩, ⟨stop, hstop⟩, ⟨handler, hhandler⟩, _⟩ := hbound
      exact ⟨_, _, resolveRegion_eq_ok.mpr ⟨start, stop, handler, hstart, hstop, hhandler, rfl⟩,
        entries, hentries, rfl⟩

/-- Every entry of the exception table stems from a region whose labels are bound. -/
theorem mem_exceptions {regions : List Region} {entries : List (Option ExceptionEntry)}
    (h : regions.mapM asm.resolveRegion = .ok entries) {entry : ExceptionEntry}
    (hmem : some entry ∈ entries) :
    ∃ region ∈ regions, asm.position? region.start = some entry.start ∧
      asm.position? region.stop = some entry.stop ∧
      asm.position? region.handler = some entry.handler ∧ entry.start < entry.stop := by
  induction regions generalizing entries with
  | nil =>
    obtain rfl : [] = entries := Except.ok.inj h
    simp at hmem
  | cons region rest ih =>
    simp only [List.mapM_cons, bind_eq_ok] at h
    obtain ⟨first, hfirst, others, hothers, h⟩ := h
    obtain rfl : first :: others = entries := Except.ok.inj h
    rcases List.mem_cons.mp hmem with heq | hmem
    · obtain ⟨start, stop, handler, hstart, hstop, hhandler, hentry⟩ :=
        resolveRegion_eq_ok.mp hfirst
      rw [← heq] at hentry
      split at hentry
      next hlt =>
        obtain rfl := Option.some.inj hentry
        exact ⟨region, List.mem_cons_self, hstart, hstop, hhandler, hlt⟩
      next => cases hentry
    · obtain ⟨found, hfound, hpositions⟩ := ih hothers hmem
      exact ⟨found, List.mem_cons_of_mem _ hfound, hpositions⟩

theorem finish_eq_ok {code : Code} :
    asm.finish = .ok code ↔ asm.overflow = none ∧ ∃ chunk entries,
      asm.fixups.toList.foldlM asm.applyFixup asm.chunk = .ok chunk ∧
      asm.regions.toList.mapM asm.resolveRegion = .ok entries ∧
      code = ⟨chunk, entries.filterMap id, sortBy Frame.precedes asm.frames.toList⟩ := by
  unfold finish
  cases hoverflow : asm.overflow with
  | some operand =>
    simp only [reduceCtorEq, false_and, iff_false]
    intro h
    cases h
  | none =>
    constructor
    · intro h
      obtain ⟨chunk, hchunk, h⟩ := bind_eq_ok.mp h
      obtain ⟨entries, hentries, h⟩ := bind_eq_ok.mp h
      exact ⟨rfl, chunk, entries, hchunk, hentries, (Except.ok.inj h).symm⟩
    · rintro ⟨_, chunk, entries, hchunk, hentries, rfl⟩
      exact bind_eq_ok.mpr ⟨chunk, hchunk, bind_eq_ok.mpr ⟨entries, hentries, rfl⟩⟩

/-- Assembling succeeds when every operand fits and every used label is bound. -/
theorem finish_isOk :
    (∃ code, asm.finish = .ok code) ↔ asm.overflow = none ∧
      (∀ fixup ∈ asm.fixups.toList, asm.Resolvable fixup.label fixup.origin) ∧
      ∀ region ∈ asm.regions.toList, ∀ label ∈ region.labels, (asm.position? label).isSome := by
  rw [← foldlM_applyFixup_isOk _ asm.chunk, ← mapM_resolveRegion_isOk]
  constructor
  · rintro ⟨code, hcode⟩
    obtain ⟨hoverflow, chunk, entries, hchunk, hentries, _⟩ := finish_eq_ok.mp hcode
    exact ⟨hoverflow, ⟨chunk, hchunk⟩, ⟨entries, hentries⟩⟩
  · rintro ⟨hoverflow, ⟨chunk, hchunk⟩, ⟨entries, hentries⟩⟩
    exact ⟨_, finish_eq_ok.mpr ⟨hoverflow, chunk, entries, hchunk, hentries, rfl⟩⟩

/-- Finished code reads back as the code that was written, with every label
replaced by its position. -/
theorem Holds.finish {written : List (InstructionOf Label)} (h : asm.Holds written) {code : Code}
    (hfinish : asm.finish = .ok code) :
    code.chunk.instructions = written.map (InstructionOf.map asm.positionOf) ∧
      (∀ instruction ∈ written, code.chunk.decode? instruction.offset =
        some (instruction.map asm.positionOf, instruction.offset + instruction.size)) ∧
      (∀ instruction ∈ written, ∀ target ∈ instruction.operand.targets,
        asm.Resolvable target instruction.offset) ∧
      code.chunk.size = asm.offset := by
  obtain ⟨_, chunk, entries, hchunk, _, rfl⟩ := finish_eq_ok.mp hfinish
  have hresolvable := (h.forall_fixups asm.Resolvable).mp
    ((foldlM_applyFixup_isOk _ asm.chunk).mp ⟨chunk, hchunk⟩)
  rw [h.fixups] at hchunk
  have hbytes : chunk.bytes.toList = renderAll asm.relative written :=
    foldlM_fixups [] h.tiles h.bytes hchunk
  have hread := instructions_of_tiles h.tiles h.form hbytes fun instruction hmem target htarget =>
    (hresolvable instruction hmem target htarget).toInt_relative
  refine ⟨hread.1, hread.2, hresolvable, ?_⟩
  rw [h.offset_eq, ← length_renderAll asm.relative written, ← hbytes, Array.length_toList]
  rfl

end Assembler

end StackLowering
