import StackLowering.Proofs.Labels
import StackLowering.Proofs.RoutineCode
import StackLowering.Proofs.Statements
/-!
Code in its place. What has been written when lowering passes through a state
stands at the same offsets in the finished code, and labels keep the positions
they got. So an instruction can be read off where it was emitted.
-/

namespace StackLowering

namespace State

variable {s m s' : State}

def offset (s : State) : Nat := s.assembler.offset

/-- Lowering goes on from one state to another. -/
structure Leads (s s' : State) : Prop where
  reaches : Reaches false s s'
  positions : ∀ {label : Label} {position : Nat}, s.assembler.position? label = some position →
    s'.assembler.position? label = some position

/-- Code is only added. -/
theorem Steps.holds {closed : Bool} {code : List (InstructionOf Label)} (h : Steps closed s s')
    (hcode : s.assembler.Holds code) (hoverflow : s'.assembler.overflow = none) :
    ∃ added, s'.assembler.Holds (code ++ added) := by
  have append {m : State} {call : Call} (hproper : call.Proper)
      (hoverflow : (m.emits call).assembler.overflow = none)
      (hholds : m.assembler.overflow = none → ∃ added, m.assembler.Holds (code ++ added)) :
      ∃ added, (m.emits call).assembler.Holds (code ++ added) := by
    obtain ⟨hbefore, hencodes⟩ := Call.overflow_run_eq_none.mp hoverflow
    obtain ⟨added, hadded⟩ := hholds hbefore
    refine ⟨added ++ call.written m.assembler, ?_⟩
    rw [← List.append_assoc]
    exact hadded.run hproper hencodes
  induction h with
  | refl => exact ⟨[], by rwa [List.append_nil]⟩
  | emits _ hsound ih => exact append hsound.proper hoverflow (ih hcode)
  | exits _ hexit ih =>
    exact append (Call.sound_of_isExit hexit Slots.empty).proper hoverflow (ih hcode)
  | slots _ _ ih | forget _ ih => exact ih hcode hoverflow
  | routines _ _ _ ih =>
    obtain ⟨added, hadded⟩ := ih hcode hoverflow
    exact ⟨added, hadded.congr rfl rfl⟩
  | context _ hcore ih =>
    obtain ⟨hassembler, _⟩ := Prod.mk.inj hcore
    rw [hassembler] at hoverflow ⊢
    exact ih hcode hoverflow

theorem position?_bind {label : Label} (h : label.id < s.labelCount) :
    (s.emits (.bind label)).assembler.position? label = some s.offset := by
  have hbound : ∀ other ∈ (Call.bind label).bound?, other.id < s.assembler.positions.size := by
    intro other hmem
    obtain rfl := Option.some.inj hmem
    exact h
  exact (Call.position?_run hbound label).trans (if_pos rfl)

namespace Leads

theorem refl (s : State) : Leads s s := ⟨.refl s, id⟩

theorem trans (h : Leads s m) (h' : Leads m s') : Leads s s' :=
  ⟨h.reaches.trans h'.reaches, fun hposition => h'.positions (h.positions hposition)⟩

theorem step {call : Call} (hsound : s.slots.Valid → call.Sound s.slots)
    (hbound : ∀ label ∈ call.bound?, s.Pending label) : Leads s (s.emits call) where
  reaches hvalid := (Steps.refl s).emits (hsound hvalid)
  positions hposition := (BindsOnly.call s call).position?
    (fun label hmem => hbound label (Option.mem_toList.mp hmem)) hposition

theorem emits {call : Call} (hplain : call.Plain) (hbound : call.bound? = none) :
    Leads s (s.emits call) :=
  step (fun _ => hplain s.slots) fun label hmem => by
    rw [hbound] at hmem
    cases hmem

theorem bind {label : Label} (h : s.Pending label) : Leads s (s.emits (.bind label)) :=
  step (fun _ => trivial) fun other hmem => by
    obtain rfl := Option.some.inj hmem
    exact h

theorem jump (label : Label) : Leads s (s.emits (.jump .jump label)) := emits (fun _ => rfl) rfl

theorem newLabels (count : Nat) (s : State) : Leads s (s.newLabels count) := by
  refine ⟨(Reaches.refl s).newLabels count, fun hposition => ?_⟩
  exact ((BindsOnly.refl [] s).newLabels count).position? (List.forall_mem_nil _) hposition

theorem discard (ty : Ty) (s : State) : Leads s (s.discard ty) := by
  refine ⟨(Reaches.refl s).discard ty, fun hposition => ?_⟩
  exact ((BindsOnly.refl [] s).discard ty).position? (List.forall_mem_nil _) hposition

theorem enterScope (s : State) : Leads s s.enterScope := by
  refine ⟨(Reaches.refl s).enterScope, fun hposition => ?_⟩
  exact (BindsOnly.refl [] s).enterScope.position? (List.forall_mem_nil _) hposition

theorem exitScope (s : State) : Leads s s.exitScope := by
  refine ⟨(Reaches.refl s).exitScope, fun hposition => ?_⟩
  exact (BindsOnly.refl [] s).exitScope.position? (List.forall_mem_nil _) hposition

theorem slots {slots : Slots} (h : Slots.Step s.slots slots) : Leads s (s.withSlots slots) :=
  ⟨(Reaches.refl s).slots h, id⟩

theorem declare {name : String} {ty : Ty} {slot : UInt16} {slots : Slots}
    (h : s.slots.declare name ty = (.ok slot, slots)) : Leads s (s.withSlots slots) :=
  .slots (.declare h)

theorem context (h : s'.core = s.core) : Leads s s' := by
  refine ⟨(Reaches.refl s).context rfl h, fun hposition => ?_⟩
  rw [(Prod.mk.inj h).1, hposition]

end Leads

end State

theorem Lowers.leads {env : Env} {job : Job} {s s' : State} (h : Lowers env job s s')
    (hbinds : job.binds = []) : State.Leads s s' := by
  refine ⟨h.reaches.forget, fun hposition => h.bindsOnly.position? ?_ hposition⟩
  rw [hbinds]
  exact List.forall_mem_nil _

namespace Image

variable {image : Image} {s m s' : State}

/-- The state lies on the way to the finished code. -/
structure Passes (image : Image) (s : State) : Prop where
  valid : s.slots.Valid
  coded : ∃ code, s.assembler.Holds code
  decodes : ∀ code, s.assembler.Holds code → ∀ instruction ∈ code,
    image.program.chunk.decode? instruction.offset =
      some (instruction.map image.position, instruction.offset + instruction.size)
  pool : s.assembler.pool.Extends image.program.pool
  positions : ∀ {label : Label} {position : Nat}, s.assembler.position? label = some position →
    image.position label = position
  frame : ∀ {slot : UInt16}, s.slots.Lists slot → slot.toNat < image.frameSize
  overflow : s.assembler.overflow = none

namespace Passes

theorem of_leads (h : image.Passes s') (hleads : s.Leads s') (hvalid : s.slots.Valid)
    (hcoded : ∃ code, s.assembler.Holds code) : image.Passes s where
  valid := hvalid
  coded := hcoded
  decodes code hcode instruction hmem := by
    obtain ⟨added, hadded⟩ := (hleads.reaches hvalid).holds hcode h.overflow
    exact h.decodes _ hadded instruction (List.mem_append_left _ hmem)
  pool := (hleads.reaches hvalid).extends_pool.trans h.pool
  positions hposition := h.positions (hleads.positions hposition)
  frame hslot := h.frame ((hleads.reaches hvalid).lists hslot)
  overflow := (hleads.reaches hvalid).overflow h.overflow

theorem between (h : image.Passes s) (h' : image.Passes s') (hbefore : s.Leads m)
    (hafter : m.Leads s') : image.Passes m := by
  have hsteps := hbefore.reaches h.valid
  have hvalid := hsteps.valid h.valid
  have hoverflow := (hafter.reaches hvalid).overflow h'.overflow
  obtain ⟨code, hcode⟩ := h.coded
  obtain ⟨added, hadded⟩ := hsteps.holds hcode hoverflow
  exact h'.of_leads hafter hvalid ⟨_, hadded⟩

theorem offset_le (h : image.Passes s) (h' : image.Passes s') (hleads : s.Leads s') :
    s.offset ≤ s'.offset := by
  obtain ⟨code, hcode⟩ := h.coded
  obtain ⟨added, hadded⟩ := (hleads.reaches h.valid).holds hcode h'.overflow
  have hbefore : s.offset = sizeAll code := hcode.offset_eq
  have hafter : s'.offset = sizeAll (code ++ added) := hadded.offset_eq
  rw [hbefore, hafter]
  simp [sizeAll]

theorem position_bind {label : Label} (h : image.Passes (s.emits (.bind label)))
    (hknown : label.id < s.labelCount) : image.position label = s.offset :=
  h.positions (State.position?_bind hknown)

section Emits

variable {call : Call} {op : Opcode} {operand : OperandOf Label}

theorem offset_emits (h : image.Passes s) (h' : image.Passes (s.emits call))
    (hproper : call.Proper) (hinstr : call.instruction? s.assembler.pool = some (op, operand)) :
    (s.emits call).offset =
      s.offset + InstructionOf.size (⟨s.offset, op, operand⟩ : InstructionOf Label) := by
  obtain ⟨_, hencodes⟩ := Call.overflow_run_eq_none.mp h'.overflow
  obtain ⟨code, hcode⟩ := h.coded
  have hbefore : s.offset = sizeAll code := hcode.offset_eq
  have hafter : (s.emits call).offset = sizeAll (code ++ call.written s.assembler) :=
    (hcode.run hproper hencodes).offset_eq
  have hwritten : call.written s.assembler = [⟨s.offset, op, operand⟩] := by
    rw [Call.written, hinstr]
    rfl
  rw [hafter, hwritten, hbefore]
  simp [sizeAll]

theorem read (h : image.Passes s) (h' : image.Passes (s.emits call)) (hproper : call.Proper)
    (hinstr : call.instruction? s.assembler.pool = some (op, operand)) :
    image.program.At s.offset op (operand.map image.position) (s.emits call).offset := by
  obtain ⟨_, hencodes⟩ := Call.overflow_run_eq_none.mp h'.overflow
  obtain ⟨code, hcode⟩ := h.coded
  have hmem : (⟨s.offset, op, operand⟩ : InstructionOf Label) ∈
      code ++ call.written s.assembler := by
    rw [Call.written, hinstr]
    exact List.mem_append_right _ List.mem_cons_self
  have hdecode := h'.decodes _ (hcode.run hproper hencodes) _ hmem
  rw [Program.At, h.offset_emits h' hproper hinstr]
  exact hdecode

end Emits

end Passes

end Image

end StackLowering
