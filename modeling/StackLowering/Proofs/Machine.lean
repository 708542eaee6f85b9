import Mathlib
import StackLowering.Proofs.Calls
/-!
A stack machine for the instructions on ints. Cells are 32-bit integers, and
arithmetic wraps around; a boolean is a cell that holds zero or one. The machine
records the static fields it writes. It halts when the routine returns or when
control runs off the end of the code, and it is stuck at an instruction that it
does not know or that finds no operands.
-/

namespace StackLowering

/-- The cell of a boolean. -/
def boolCell (value : Bool) : Int32 := if value then 1 else 0

namespace Opcode

/-- What an instruction without operand pushes. -/
def pushed? : Opcode → Option Int32
  | pushNull | pushFalse | pushZero => some 0
  | pushTrue | pushOne => some 1
  | _ => none

/-- What an instruction makes of the cell on top. -/
def unary? : Opcode → Option (Int32 → Int32)
  | negI32 => some fun value => -value
  | not => some fun value => boolCell (value == 0)
  | _ => none

/-- What an instruction makes of the two cells on top, the left one below. The
lowest five bits of a shift count. -/
def binary? : Opcode → Option (Int32 → Int32 → Int32)
  | addI32 => some fun left right => left + right
  | subI32 => some fun left right => left - right
  | mulI32 => some fun left right => left * right
  | andI32 => some fun left right => left &&& right
  | orI32 => some fun left right => left ||| right
  | xorI32 => some fun left right => left ^^^ right
  | shlI32 => some fun left right => left <<< right
  | shrI32 => some fun left right => left >>> right
  | ushrI32 => some fun left right => (left.toUInt32 >>> right.toUInt32).toInt32
  | eqI32 => some fun left right => boolCell (left == right)
  | ltI32 => some fun left right => boolCell (left < right)
  | leI32 => some fun left right => boolCell (left ≤ right)
  | gtI32 => some fun left right => boolCell (right < left)
  | geI32 => some fun left right => boolCell (right ≤ left)
  | _ => none

end Opcode

/-- Code and the pool that its operands refer to. -/
structure Program where
  chunk : Chunk
  pool : Pool

structure Machine where
  /-- Offset of the next instruction. -/
  pc : Nat
  /-- Operands, the latest first. -/
  stack : List Int32
  locals : List Int32
  /-- Static fields written so far, in order. -/
  writes : List (Digest × Int32)
deriving DecidableEq

/-- How a routine ends. -/
inductive Outcome where
  | returned (value : Option Int32)
  /-- Control ran off the end of the code. -/
  | ended
deriving DecidableEq

/-- Where some steps lead. -/
inductive Progress where
  | running (machine : Machine)
  | halted (outcome : Outcome) (writes : List (Digest × Int32))
  | stuck
deriving DecidableEq

namespace Progress

/-- Go on, unless the machine has stopped. -/
def andThen (progress : Progress) (next : Machine → Progress) : Progress :=
  match progress with
  | running machine => next machine
  | halted outcome writes => halted outcome writes
  | stuck => stuck

/-- The static fields written up to there. -/
def writes : Progress → List (Digest × Int32)
  | running machine => machine.writes
  | halted _ writes => writes
  | stuck => []

end Progress

namespace Machine

/-- A routine is called with its arguments in the first cells of the frame. -/
def start (frameSize : Nat) (args : List Int32) : Machine :=
  ⟨0, [], args ++ List.replicate (frameSize - args.length) 0, []⟩

def push (next : Nat) (machine : Machine) (value : Int32) : Machine :=
  { machine with pc := next, stack := value :: machine.stack }

def load (slot next : Nat) (machine : Machine) : Progress :=
  match machine.locals[slot]? with
  | some value => .running (machine.push next value)
  | none => .stuck

def store (slot next : Nat) (machine : Machine) : Progress :=
  match machine.stack with
  | value :: stack =>
    if slot < machine.locals.length then
      .running ⟨next, stack, machine.locals.set slot value, machine.writes⟩
    else .stuck
  | [] => .stuck

def increment (slot next : Nat) (delta : Int32) (machine : Machine) : Progress :=
  match machine.locals[slot]? with
  | some value =>
    .running { machine with pc := next, locals := machine.locals.set slot (value + delta) }
  | none => .stuck

/-- Take the cell on top and go to `target` if it satisfies `jumps`. -/
def branch (jumps : Int32 → Bool) (target next : Nat) (machine : Machine) : Progress :=
  match machine.stack with
  | value :: stack =>
    .running { machine with pc := if jumps value then target else next, stack := stack }
  | [] => .stuck

/-- Instructions that only work on the stack. -/
def operate (op : Opcode) (next : Nat) (machine : Machine) : Progress :=
  match op.pushed?, op.unary?, op.binary?, machine.stack with
  | some value, _, _, _ => .running (machine.push next value)
  | _, some f, _, value :: stack => .running { machine with pc := next, stack := f value :: stack }
  | _, _, some f, right :: left :: stack =>
    .running { machine with pc := next, stack := f left right :: stack }
  | _, _, _, stack =>
    match op, stack with
    | .pop, _ :: stack => .running { machine with pc := next, stack := stack }
    | .dup, value :: stack => .running { machine with pc := next, stack := value :: value :: stack }
    | .swap, right :: left :: stack =>
      .running { machine with pc := next, stack := left :: right :: stack }
    | .returnValue, value :: _ => .halted (.returned (some value)) machine.writes
    | .returnVoid, _ => .halted (.returned none) machine.writes
    | _, _ => .stuck

end Machine

namespace Program

def int? (program : Program) (index : Nat) : Option Int32 :=
  match program.pool.get? index with
  | some (.int value) => some value
  | _ => none

def digest? (program : Program) (index : Nat) : Option Digest :=
  match program.pool.get? index with
  | some (.digest digest) => some digest
  | _ => none

/-- Push an int of the pool. -/
def pushInt (program : Program) (index next : Nat) (machine : Machine) : Progress :=
  match program.int? index with
  | some value => .running (machine.push next value)
  | none => .stuck

/-- Write the cell on top to the static field that the pool names. -/
def writeStatic (program : Program) (index next : Nat) (machine : Machine) : Progress :=
  match program.digest? index, machine.stack with
  | some field, value :: stack =>
    .running ⟨next, stack, machine.locals, machine.writes ++ [(field, value)]⟩
  | _, _ => .stuck

/-- Carry out an instruction that ends at `next`. -/
def execute (program : Program) (op : Opcode) (operand : Operand) (next : Nat)
    (machine : Machine) : Progress :=
  match operand, op with
  | .none, _ => machine.operate op next
  | .byte index, .constant => program.pushInt index.toNat next machine
  | .byte slot, .getLocal => machine.load slot.toNat next
  | .byte slot, .setLocal => machine.store slot.toNat next
  | .short index, .constantWide => program.pushInt index.toNat next machine
  | .short slot, .getLocalWide => machine.load slot.toNat next
  | .short slot, .setLocalWide => machine.store slot.toNat next
  | .short index, .setStatic => program.writeStatic index.toNat next machine
  | .increment slot delta, .incLocal => machine.increment slot.toNat next delta.toInt32
  | .jump target, .jump => .running { machine with pc := target }
  | .jump target, .jumpIfTrue => machine.branch (· != 0) target next
  | .jump target, .jumpIfFalse => machine.branch (· == 0) target next
  | _, _ => .stuck

def step (program : Program) (machine : Machine) : Progress :=
  if machine.pc = program.chunk.size then .halted .ended machine.writes
  else match program.chunk.decode? machine.pc with
    | some (instruction, next) =>
      program.execute instruction.op instruction.operand next machine
    | none => .stuck

/-- What `steps` steps lead to. -/
def run (program : Program) : Nat → Machine → Progress
  | 0, machine => .running machine
  | steps + 1, machine => (program.step machine).andThen (program.run steps)

end Program

namespace Progress

@[simp]
theorem andThen_running (machine : Machine) (next : Machine → Progress) :
    (running machine).andThen next = next machine := rfl

theorem andThen_assoc (progress : Progress) (next after : Machine → Progress) :
    (progress.andThen next).andThen after =
      progress.andThen fun machine => (next machine).andThen after := by
  cases progress <;> rfl

end Progress

variable {slot : UInt16} {position : Label → Nat}

namespace Program

variable {program : Program} {machine middle after : Machine} {steps more : Nat}

theorem run_add (program : Program) (steps more : Nat) (machine : Machine) :
    program.run (steps + more) machine =
      (program.run steps machine).andThen (program.run more) := by
  induction steps generalizing machine with
  | zero => rw [Nat.zero_add, run, Progress.andThen_running]
  | succ steps ih =>
    have hnext : program.run (steps + more) =
        fun machine => (program.run steps machine).andThen (program.run more) := funext ih
    rw [Nat.succ_add, run, run, Progress.andThen_assoc, hnext]

theorem run_trans (h : program.run steps machine = .running middle) (more : Nat) :
    program.run (steps + more) machine = program.run more middle := by
  rw [run_add, h, Progress.andThen_running]

theorem run_one (program : Program) (machine : Machine) :
    program.run 1 machine = program.step machine := by
  change (program.step machine).andThen (program.run 0) = _
  cases program.step machine <;> rfl

theorem run_of_halted {outcome : Outcome} {writes : List (Digest × Int32)}
    (h : program.run steps machine = .halted outcome writes) (hle : steps ≤ more) :
    program.run more machine = .halted outcome writes := by
  obtain ⟨rest, rfl⟩ := Nat.exists_eq_add_of_le hle
  rw [run_add, h]
  rfl

theorem running_of_le (h : program.run more machine = .running after) (hle : steps ≤ more) :
    ∃ middle, program.run steps machine = .running middle := by
  obtain ⟨rest, rfl⟩ := Nat.exists_eq_add_of_le hle
  rw [run_add] at h
  cases hrun : program.run steps machine with
  | running middle => exact ⟨middle, rfl⟩
  | halted outcome writes =>
    rw [hrun] at h
    cases h
  | stuck =>
    rw [hrun] at h
    cases h

/-- The instruction from `start` to `stop`. -/
def At (program : Program) (start : Nat) (op : Opcode) (operand : Operand) (stop : Nat) : Prop :=
  program.chunk.decode? start = some (⟨start, op, operand⟩, stop)

section Steps

variable {start stop : Nat} {op : Opcode} {operand : Operand} {stack locals : List Int32}
  {writes : List (Digest × Int32)} {value : Int32}

theorem At.lt_size (h : program.At start op operand stop) : start < program.chunk.size := by
  obtain ⟨code, hcode, _⟩ := Option.bind_eq_some_iff.mp h
  obtain ⟨byte, hbyte, _⟩ := Option.bind_eq_some_iff.mp hcode
  exact (Array.getElem?_eq_some_iff.mp hbyte).1

theorem At.step (h : program.At start op operand stop) :
    program.step ⟨start, stack, locals, writes⟩ =
      program.execute op operand stop ⟨start, stack, locals, writes⟩ := by
  have hdecode : program.chunk.decode? start = some (⟨start, op, operand⟩, stop) := h
  unfold Program.step
  rw [if_neg h.lt_size.ne, hdecode]

theorem At.step_push (h : program.At start op .none stop) (hop : op.pushed? = some value) :
    program.step ⟨start, stack, locals, writes⟩ =
      .running ⟨stop, value :: stack, locals, writes⟩ := by
  rw [h.step, execute, Machine.operate, hop]
  rfl

theorem At.step_unary (h : program.At start op .none stop) {f : Int32 → Int32}
    (hop : op.unary? = some f) :
    program.step ⟨start, value :: stack, locals, writes⟩ =
      .running ⟨stop, f value :: stack, locals, writes⟩ := by
  have hpushed : op.pushed? = none := by
    cases op <;> cases hop <;> rfl
  rw [h.step, execute, Machine.operate, hop, hpushed]

theorem At.step_binary (h : program.At start op .none stop) {f : Int32 → Int32 → Int32}
    (hop : op.binary? = some f) {left right : Int32} :
    program.step ⟨start, right :: left :: stack, locals, writes⟩ =
      .running ⟨stop, f left right :: stack, locals, writes⟩ := by
  have hpushed : op.pushed? = none := by
    cases op <;> cases hop <;> rfl
  have hunary : op.unary? = none := by
    cases op <;> cases hop <;> rfl
  rw [h.step, execute, Machine.operate, hop, hpushed, hunary]

theorem At.step_pop (h : program.At start .pop .none stop) :
    program.step ⟨start, value :: stack, locals, writes⟩ =
      .running ⟨stop, stack, locals, writes⟩ := by
  rw [h.step]
  rfl

theorem At.step_returnValue (h : program.At start .returnValue .none stop) :
    program.step ⟨start, value :: stack, locals, writes⟩ =
      .halted (.returned (some value)) writes := by
  rw [h.step]
  rfl

theorem At.step_returnVoid (h : program.At start .returnVoid .none stop) :
    program.step ⟨start, stack, locals, writes⟩ = .halted (.returned none) writes := by
  rw [h.step]
  rfl

theorem At.step_jump {target : Nat} (h : program.At start .jump (.jump target) stop) :
    program.step ⟨start, stack, locals, writes⟩ =
      .running ⟨target, stack, locals, writes⟩ := by
  rw [h.step]
  rfl

theorem At.step_jumpIf {target : Nat} {sense : Bool}
    (h : program.At start (if sense then .jumpIfTrue else .jumpIfFalse) (.jump target) stop)
    (test : Bool) :
    program.step ⟨start, boolCell test :: stack, locals, writes⟩ =
      .running ⟨if test = sense then target else stop, stack, locals, writes⟩ := by
  rw [h.step]
  cases sense <;> cases test <;> rfl

theorem At.step_increment {delta : Int16}
    (h : program.At start .incLocal (.increment slot delta) stop)
    (hvalue : locals[slot.toNat]? = some value) :
    program.step ⟨start, stack, locals, writes⟩ =
      .running ⟨stop, stack, locals.set slot.toNat (value + delta.toInt32), writes⟩ := by
  have hexecute : program.execute .incLocal (.increment slot delta) stop
      ⟨start, stack, locals, writes⟩ =
        Machine.increment slot.toNat stop delta.toInt32 ⟨start, stack, locals, writes⟩ := rfl
  rw [h.step, hexecute, Machine.increment, hvalue]

theorem At.step_writeStatic {index : UInt16} {field : Digest}
    (h : program.At start .setStatic (.short index) stop)
    (hfield : program.pool.get? index.toNat = some (.digest field)) :
    program.step ⟨start, value :: stack, locals, writes⟩ =
      .running ⟨stop, stack, locals, writes ++ [(field, value)]⟩ := by
  have hexecute : program.execute .setStatic (.short index) stop
      ⟨start, value :: stack, locals, writes⟩ =
        program.writeStatic index.toNat stop ⟨start, value :: stack, locals, writes⟩ := rfl
  rw [h.step, hexecute, writeStatic, digest?, hfield]

/-- Both forms of a load read the variable. -/
theorem At.step_getLocal (h : program.At start (accessLocal .getLocal .getLocalWide slot).1
      ((accessLocal .getLocal .getLocalWide slot).2.map position) stop)
    (hvalue : locals[slot.toNat]? = some value) :
    program.step ⟨start, stack, locals, writes⟩ =
      .running ⟨stop, value :: stack, locals, writes⟩ := by
  have hload : Machine.load slot.toNat stop ⟨start, stack, locals, writes⟩ =
      .running ⟨stop, value :: stack, locals, writes⟩ := by
    rw [Machine.load, hvalue]
    rfl
  rw [accessLocal] at h
  split_ifs at h with hslot
  · have hlt : slot.toNat < 256 := UInt16.lt_iff_toNat_lt.mp hslot
    have hbyte : slot.toUInt8.toNat = slot.toNat := by
      rw [UInt16.toNat_toUInt8]
      omega
    rw [h.step, ← hload, ← hbyte]
    rfl
  · rw [h.step, ← hload]
    rfl

/-- Both forms of a store write the variable. -/
theorem At.step_setLocal (h : program.At start (accessLocal .setLocal .setLocalWide slot).1
      ((accessLocal .setLocal .setLocalWide slot).2.map position) stop)
    (hlocal : slot.toNat < locals.length) :
    program.step ⟨start, value :: stack, locals, writes⟩ =
      .running ⟨stop, stack, locals.set slot.toNat value, writes⟩ := by
  have hstore : Machine.store slot.toNat stop ⟨start, value :: stack, locals, writes⟩ =
      .running ⟨stop, stack, locals.set slot.toNat value, writes⟩ := if_pos hlocal
  rw [accessLocal] at h
  split_ifs at h with hslot
  · have hlt : slot.toNat < 256 := UInt16.lt_iff_toNat_lt.mp hslot
    have hbyte : slot.toUInt8.toNat = slot.toNat := by
      rw [UInt16.toNat_toUInt8]
      omega
    rw [h.step, ← hstore, ← hbyte]
    rfl
  · rw [h.step, ← hstore]
    rfl

/-- Both forms of a constant push the int of the pool. -/
theorem At.step_constant {index : Nat}
    (h : program.At start (loadConstant index).1 ((loadConstant index).2.map position) stop)
    (hindex : index < 65536) (hvalue : program.pool.get? index = some (.int value)) :
    program.step ⟨start, stack, locals, writes⟩ =
      .running ⟨stop, value :: stack, locals, writes⟩ := by
  have hpush {found : Nat} (hfound : found = index) :
      program.pushInt found stop ⟨start, stack, locals, writes⟩ =
        .running ⟨stop, value :: stack, locals, writes⟩ := by
    rw [pushInt, int?, hfound, hvalue]
    rfl
  rw [loadConstant] at h
  split_ifs at h with hsmall
  · exact h.step.trans (hpush (UInt8.toNat_ofNat_of_lt' hsmall))
  · exact h.step.trans (hpush (UInt16.toNat_ofNat_of_lt' hindex))

end Steps

end Program

/-- The machine has only added to the writes, unless it is stuck. -/
def Progress.Adds (writes : List (Digest × Int32)) (progress : Progress) : Prop :=
  progress = .stuck ∨ writes <+: progress.writes

namespace Machine

variable (machine : Machine)

theorem adds_operate (op : Opcode) (next : Nat) :
    (machine.operate op next).Adds machine.writes := by
  unfold operate
  split
  · exact .inr (List.prefix_refl _)
  · exact .inr (List.prefix_refl _)
  · exact .inr (List.prefix_refl _)
  · split
    case h_6 => exact .inl rfl
    all_goals exact .inr (List.prefix_refl _)

theorem adds_load (slot next : Nat) : (machine.load slot next).Adds machine.writes := by
  unfold load
  split
  · exact .inr (List.prefix_refl _)
  · exact .inl rfl

theorem adds_store (slot next : Nat) : (machine.store slot next).Adds machine.writes := by
  unfold store
  split
  · split_ifs
    · exact .inr (List.prefix_refl _)
    · exact .inl rfl
  · exact .inl rfl

theorem adds_increment (slot next : Nat) (delta : Int32) :
    (machine.increment slot next delta).Adds machine.writes := by
  unfold increment
  split
  · exact .inr (List.prefix_refl _)
  · exact .inl rfl

theorem adds_branch (jumps : Int32 → Bool) (target next : Nat) :
    (machine.branch jumps target next).Adds machine.writes := by
  unfold branch
  split
  · exact .inr (List.prefix_refl _)
  · exact .inl rfl

end Machine

namespace Program

variable (program : Program) (machine : Machine)

theorem adds_pushInt (index next : Nat) :
    (program.pushInt index next machine).Adds machine.writes := by
  unfold pushInt
  split
  · exact .inr (List.prefix_refl _)
  · exact .inl rfl

theorem adds_writeStatic (index next : Nat) :
    (program.writeStatic index next machine).Adds machine.writes := by
  unfold writeStatic
  split
  · exact .inr (List.prefix_append _ _)
  · exact .inl rfl

theorem adds_execute (op : Opcode) (operand : Operand) (next : Nat) :
    (program.execute op operand next machine).Adds machine.writes := by
  unfold execute
  split
  · exact machine.adds_operate op next
  · exact program.adds_pushInt machine _ next
  · exact machine.adds_load _ next
  · exact machine.adds_store _ next
  · exact program.adds_pushInt machine _ next
  · exact machine.adds_load _ next
  · exact machine.adds_store _ next
  · exact program.adds_writeStatic machine _ next
  · exact machine.adds_increment _ next _
  · exact .inr (List.prefix_refl _)
  · exact machine.adds_branch _ _ next
  · exact machine.adds_branch _ _ next
  · exact .inl rfl

theorem adds_step : (program.step machine).Adds machine.writes := by
  unfold step
  split_ifs
  · exact .inr (List.prefix_refl _)
  · split
    · exact program.adds_execute machine _ _ _
    · exact .inl rfl

theorem adds_run (steps : Nat) : (program.run steps machine).Adds machine.writes := by
  induction steps generalizing machine with
  | zero => exact .inr (List.prefix_refl _)
  | succ steps ih =>
    have hstep := program.adds_step machine
    rw [run]
    cases hnext : program.step machine with
    | running middle =>
      rw [hnext] at hstep
      rcases ih middle with hstuck | hrest
      · exact .inl hstuck
      · exact .inr ((hstep.resolve_left nofun).trans hrest)
    | halted outcome writes =>
      rw [hnext] at hstep
      exact hstep
    | stuck => exact .inl rfl

end Program

end StackLowering
