import StackLowering.Proofs.SwitchDispatch
/-!
Code in blocks. A machine that knows jumps, switches and booleans runs code whose
other instructions may do anything. Parts of the code are set apart as blocks: a
pass through a block lasts until control leaves it. A run is then a sequence of
passes and of single instructions outside all blocks, and it tells which blocks
were passed, in order.
-/

namespace StackLowering

/-- A point of a run: where control is, the operands with the latest first, and
all the rest. -/
structure Config (W : Type) where
  pc : Nat
  stack : List Int32
  world : W

/-- What the other instructions do, from their operand and the offset behind them.
Without a result, the run leaves the routine. -/
abbrev Effects (W : Type) := Opcode → Operand → Nat → Config W → Option (Config W)

variable {W : Type}

/-- Carry out an instruction that ends at `next`. -/
def Effects.execute (effects : Effects W) (op : Opcode) (operand : Operand) (next : Nat)
    (config : Config W) : Option (Config W) :=
  match operand, op, config.stack with
  | .none, .pushTrue, stack => some ⟨next, boolCell true :: stack, config.world⟩
  | .none, .pushFalse, stack => some ⟨next, boolCell false :: stack, config.world⟩
  | .none, .not, value :: stack => some ⟨next, boolCell (value == 0) :: stack, config.world⟩
  | .jump target, .jump, stack => some ⟨target, stack, config.world⟩
  | .jump target, .jumpIfTrue, value :: stack =>
    some ⟨if value = 0 then next else target, stack, config.world⟩
  | .jump target, .jumpIfFalse, value :: stack =>
    some ⟨if value = 0 then target else next, stack, config.world⟩
  | .table .., _, key :: stack | .lookup .., _, key :: stack =>
    (operand.select? key).map fun target => ⟨target, stack, config.world⟩
  | _, _, _ => effects op operand next config

/-- One step of the machine. -/
def Program.advance? (program : Program) (effects : Effects W) (config : Config W) :
    Option (Config W) :=
  match program.chunk.decode? config.pc with
  | some (instruction, next) => effects.execute instruction.op instruction.operand next config
  | none => none

/-- A number of steps. -/
def Program.advances? (program : Program) (effects : Effects W) :
    Nat → Config W → Option (Config W)
  | 0, config => some config
  | count + 1, config => (program.advance? effects config).bind (program.advances? effects count)

theorem Chunk.lt_of_operand? {chunk : Chunk} {offset next : Nat} {op : Opcode} {operand : Operand}
    (h : chunk.operand? offset op = some (operand, next)) : offset < next := by
  unfold Chunk.operand? at h
  split at h
  all_goals try split at h
  all_goals
    simp only [Chunk.tableOperand?, Chunk.lookupOperand?, Option.bind_eq_bind,
      Option.bind_eq_some_iff, Option.pure_def, Option.some.injEq, Prod.mk.injEq,
      Option.map_eq_some_iff, Option.ite_none_left_eq_some] at h
    grind

namespace Program.At

variable {program : Program} {start stop : Nat} {op : Opcode} {operand : Operand}
  {stack : List Int32} {world : W}

theorem lt (h : program.At start op operand stop) : start < stop := by
  have hdecode : program.chunk.decode? start = some (⟨start, op, operand⟩, stop) := h
  simp only [Chunk.decode?, Option.bind_eq_bind, Option.bind_eq_some_iff, Option.pure_def,
    Option.some.injEq, Prod.mk.injEq] at hdecode
  obtain ⟨_, _, ⟨_, _⟩, hoperand, _, rfl⟩ := hdecode
  exact Chunk.lt_of_operand? hoperand

theorem advance? (h : program.At start op operand stop) (effects : Effects W) :
    program.advance? effects ⟨start, stack, world⟩ =
      effects.execute op operand stop ⟨start, stack, world⟩ := by
  have hdecode : program.chunk.decode? start = some (⟨start, op, operand⟩, stop) := h
  rw [Program.advance?, hdecode]

theorem advance?_bool (value : Bool) (effects : Effects W)
    (h : program.At start (if value then .pushTrue else .pushFalse) .none stop) :
    program.advance? effects ⟨start, stack, world⟩ =
      some ⟨stop, boolCell value :: stack, world⟩ := by
  rw [h.advance?]
  cases value <;> rfl

theorem advance?_not (h : program.At start .not .none stop) (effects : Effects W) (value : Bool) :
    program.advance? effects ⟨start, boolCell value :: stack, world⟩ =
      some ⟨stop, boolCell (!value) :: stack, world⟩ := by
  rw [h.advance?]
  cases value <;> rfl

theorem advance?_jump {target : Nat} (h : program.At start .jump (.jump target) stop)
    (effects : Effects W) :
    program.advance? effects ⟨start, stack, world⟩ = some ⟨target, stack, world⟩ := by
  rw [h.advance?]
  rfl

theorem advance?_jumpIf {target : Nat} {sense : Bool}
    (h : program.At start (if sense then .jumpIfTrue else .jumpIfFalse) (.jump target) stop)
    (effects : Effects W) (value : Bool) :
    program.advance? effects ⟨start, boolCell value :: stack, world⟩ =
      some ⟨if value = sense then target else stop, stack, world⟩ := by
  rw [h.advance?]
  cases sense <;> cases value <;> rfl

theorem advance?_select {key : Int32} {target : Nat} (h : program.At start op operand stop)
    (hselect : operand.select? key = some target) (effects : Effects W) :
    program.advance? effects ⟨start, key :: stack, world⟩ = some ⟨target, stack, world⟩ := by
  rw [h.advance?]
  cases operand with
  | table | lookup =>
    exact congrArg (Option.map fun target => (⟨target, stack, world⟩ : Config W)) hselect
  | _ => cases hselect

end Program.At

/-- The code from one offset up to another. -/
structure Block where
  start : Nat
  stop : Nat
deriving DecidableEq

def Block.Contains (block : Block) (pc : Nat) : Prop := block.start ≤ pc ∧ pc < block.stop

/-- Control stays in the block until it is outside for the first time. -/
inductive Pass (step : Config W → Option (Config W)) (block : Block) :
    Config W → Config W → Prop
  | outside {config : Config W} (hout : ¬ block.Contains config.pc) : Pass step block config config
  | inside {config next last : Config W} (hin : block.Contains config.pc)
      (hstep : step config = some next) (hrest : Pass step block next last) :
      Pass step block config last

/-- A run, with the blocks that it passes through. They are told by their places
in the list. -/
inductive Walk (step : Config W → Option (Config W)) (blocks : List Block) :
    Config W → List Nat → Config W → Prop
  | done {config : Config W} : Walk step blocks config [] config
  | instruction {config next last : Config W} {passed : List Nat}
      (hout : ∀ block ∈ blocks, ¬ block.Contains config.pc) (hstep : step config = some next)
      (hrest : Walk step blocks next passed last) : Walk step blocks config passed last
  | block {config next last : Config W} {passed : List Nat} {index : Nat} {block : Block}
      (hblock : blocks[index]? = some block) (hstart : config.pc = block.start)
      (hpass : Pass step block config next) (hrest : Walk step blocks next passed last) :
      Walk step blocks config (index :: passed) last

namespace Walk

variable {step : Config W → Option (Config W)} {blocks : List Block}
  {config next last : Config W} {passed more : List Nat}

theorem trans (h : Walk step blocks config passed next)
    (h' : Walk step blocks next more last) :
    Walk step blocks config (passed ++ more) last := by
  induction h with
  | done => exact h'
  | instruction hout hstep _ ih => exact .instruction hout hstep (ih h')
  | block hblock hstart hpass _ ih => exact .block hblock hstart hpass (ih h')

theorem andStep (h : Walk step blocks config passed next)
    (hout : ∀ block ∈ blocks, ¬ block.Contains next.pc) (hstep : step next = some last) :
    Walk step blocks config passed last := by
  have hrun := h.trans (.instruction hout hstep .done)
  rwa [List.append_nil] at hrun

end Walk

end StackLowering
