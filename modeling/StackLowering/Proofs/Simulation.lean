import StackLowering.Lowering.Operator
import StackLowering.Proofs.ScopeStack
/-!
Code that behaves like an expression. The machine computes the value of the
expression, or decides it by a jump, as long as its frame agrees with the
variables of the evaluation. Parts that do so can be put together as operators
put expressions together.
-/

namespace StackLowering

namespace Value

theorem exists_int {value : Value} (h : value.ty = Ty.int) : ∃ a, value = .int a := by
  cases value with
  | int a => exact ⟨a, rfl⟩
  | bool b => cases h

theorem exists_bool {value : Value} (h : value.ty = Ty.bool) : ∃ b, value = .bool b := by
  cases value with
  | int a => cases h
  | bool b => exact ⟨b, rfl⟩

end Value

variable {ty : Ty} {middle' : Nat}

namespace Program

/-- The code from `start` to `stop` pushes the value of an expression. -/
def Computes (program : Program) (scopes : ScopeStack) (tree : Tree) (ty : Ty)
    (start stop : Nat) : Prop :=
  ∀ vars locals stack writes, scopes.Agrees vars locals →
    ∃ value steps, tree.eval? vars = some value ∧ value.ty = ty ∧
      program.run steps ⟨start, stack, locals, writes⟩ =
        .running ⟨stop, value.cell :: stack, locals, writes⟩

/-- The code from `start` to `stop` jumps to `target` if a condition has the value
`sense`, and only then. A jump takes a step. -/
def Tests (program : Program) (scopes : ScopeStack) (condition : Tree) (sense : Bool)
    (target start stop : Nat) : Prop :=
  ∀ vars locals stack writes, scopes.Agrees vars locals →
    ∃ value steps, condition.eval? vars = some (.bool value) ∧ (value = sense → 0 < steps) ∧
      program.run steps ⟨start, stack, locals, writes⟩ =
        .running ⟨if value = sense then target else stop, stack, locals, writes⟩

variable {program : Program} {scopes : ScopeStack} {start middle stop target : Nat}

theorem run_succ {machine before after : Machine} {steps : Nat}
    (h : program.run steps machine = .running before)
    (hstep : program.step before = .running after) :
    program.run (steps + 1) machine = .running after := by
  rw [run_trans h, run_one, hstep]

section Computes

theorem computes_int {value : Int32}
    (h : ∀ stack locals writes, program.step ⟨start, stack, locals, writes⟩ =
      .running ⟨stop, value :: stack, locals, writes⟩) :
    program.Computes scopes (.literal (.int value)) Ty.int start stop := by
  intro vars locals stack writes _
  refine ⟨.int value, 1, rfl, rfl, ?_⟩
  rw [run_one]
  exact h stack locals writes

theorem computes_bool {value : Bool} {op : Opcode} (h : program.At start op .none stop)
    (hop : op.pushed? = some (boolCell value)) :
    program.Computes scopes (.literal (.bool value)) Ty.bool start stop := by
  intro vars locals stack writes _
  refine ⟨.bool value, 1, rfl, rfl, ?_⟩
  rw [run_one]
  exact h.step_push hop

theorem computes_readLocal {name : String} {binding : Binding} {position : Label → Nat}
    (hvisible : scopes.visible? name = some binding)
    (h : program.At start (accessLocal .getLocal .getLocalWide binding.slot).1
      ((accessLocal .getLocal .getLocalWide binding.slot).2.map position) stop) :
    program.Computes scopes (.readLocal name binding.ty) binding.ty start stop := by
  intro vars locals stack writes hagrees
  obtain ⟨value, hvalue, hty, hcell⟩ := hagrees.lookup hvisible
  refine ⟨value, 1, hvalue, hty, ?_⟩
  rw [run_one]
  exact h.step_getLocal hcell

variable {left right : Tree}

/-- An instruction on the values of two expressions. -/
theorem Computes.binary {tree : Tree} {ty' : Ty} {op : Opcode} {f : Int32 → Int32 → Int32}
    (hleft : program.Computes scopes left ty start middle)
    (hright : program.Computes scopes right ty middle middle')
    (h : program.At middle' op .none stop) (hop : op.binary? = some f)
    (heval : ∀ vars x y, left.eval? vars = some x → right.eval? vars = some y → x.ty = ty →
      y.ty = ty → ∃ z, tree.eval? vars = some z ∧ z.ty = ty' ∧ z.cell = f x.cell y.cell) :
    program.Computes scopes tree ty' start stop := by
  intro vars locals stack writes hagrees
  obtain ⟨x, steps, hx, hxty, hrun⟩ := hleft vars locals stack writes hagrees
  obtain ⟨y, steps', hy, hyty, hrun'⟩ := hright vars locals (x.cell :: stack) writes hagrees
  obtain ⟨z, hz, hzty, hcell⟩ := heval vars x y hx hy hxty hyty
  refine ⟨z, steps + steps' + 1, hz, hzty, run_succ ((run_trans hrun steps').trans hrun') ?_⟩
  rw [hcell]
  exact h.step_binary hop

theorem Computes.unary {operand tree : Tree} {ty' : Ty} {op : Opcode} {f : Int32 → Int32}
    (hoperand : program.Computes scopes operand ty start middle)
    (h : program.At middle op .none stop) (hop : op.unary? = some f)
    (heval : ∀ vars x, operand.eval? vars = some x → x.ty = ty →
      ∃ z, tree.eval? vars = some z ∧ z.ty = ty' ∧ z.cell = f x.cell) :
    program.Computes scopes tree ty' start stop := by
  intro vars locals stack writes hagrees
  obtain ⟨x, steps, hx, hxty, hrun⟩ := hoperand vars locals stack writes hagrees
  obtain ⟨z, hz, hzty, hcell⟩ := heval vars x hx hxty
  refine ⟨z, steps + 1, hz, hzty, run_succ hrun ?_⟩
  rw [hcell]
  exact h.step_unary hop

/-- Integer arithmetic. -/
theorem Computes.arith {op : ArithOp} {code : Opcode} (hop : op ≠ .div ∧ op ≠ .rem)
    (hcode : op.opcode? .i32 = some code) (hleft : program.Computes scopes left Ty.int start middle)
    (hright : program.Computes scopes right Ty.int middle middle')
    (h : program.At middle' code .none stop) :
    program.Computes scopes (.arith op Ty.int left right) Ty.int start stop := by
  obtain ⟨f, hf, hbinary⟩ : ∃ f, op.onInts? = some f ∧ code.binary? = some f := by
    cases op <;> cases hcode <;> simp [ArithOp.onInts?, Opcode.binary?] at hop ⊢
  refine hleft.binary hright h hbinary fun vars x y hx hy hxty hyty => ?_
  obtain ⟨a, rfl⟩ := Value.exists_int hxty
  obtain ⟨b, rfl⟩ := Value.exists_int hyty
  refine ⟨.int (f a b), ?_, rfl, rfl⟩
  simp [Tree.eval?, hf, hx, hy, Value.int?]

theorem eval?_compare {op : CompareOp} {vars : Variables} {x y : Value}
    (hx : left.eval? vars = some x) (hy : right.eval? vars = some y) (hty : x.ty = y.ty) :
    (Tree.compare op left right).eval? vars = some (.bool (op.holds x.cell y.cell)) := by
  simp [Tree.eval?, hx, hy, hty]

/-- A comparison with an instruction of its own. -/
theorem Computes.compare {op : CompareOp} {code : Opcode} (hop : op ≠ .ne)
    (hcode : op.opcode? .i32 = some code) (hleft : program.Computes scopes left ty start middle)
    (hright : program.Computes scopes right ty middle middle')
    (h : program.At middle' code .none stop) :
    program.Computes scopes (.compare op left right) Ty.bool start stop := by
  obtain ⟨f, hbinary, hf⟩ : ∃ f, code.binary? = some f ∧
      ∀ a b, f a b = boolCell (op.holds a b) := by
    cases op <;> cases hcode <;> simp [Opcode.binary?, CompareOp.holds] at hop ⊢
  refine hleft.binary hright h hbinary fun vars x y hx hy hxty hyty => ?_
  exact ⟨_, eval?_compare hx hy (hxty.trans hyty.symm), rfl, (hf x.cell y.cell).symm⟩

/-- Inequality is the negation of equality. -/
theorem Computes.compare_ne {middle₁ middle₂ : Nat}
    (hleft : program.Computes scopes left ty start middle)
    (hright : program.Computes scopes right ty middle middle₁)
    (heq : program.At middle₁ .eqI32 .none middle₂) (hnot : program.At middle₂ .not .none stop) :
    program.Computes scopes (.compare .ne left right) Ty.bool start stop := by
  intro vars locals stack writes hagrees
  obtain ⟨x, steps, hx, hxty, hrun⟩ := hleft vars locals stack writes hagrees
  obtain ⟨y, steps', hy, hyty, hrun'⟩ := hright vars locals (x.cell :: stack) writes hagrees
  have hequal := run_succ ((run_trans hrun steps').trans hrun') (heq.step_binary rfl)
  have hcell : boolCell (boolCell (x.cell == y.cell) == 0) = boolCell (x.cell != y.cell) := by
    rw [bne]
    cases x.cell == y.cell <;> rfl
  refine ⟨_, _, eval?_compare hx hy (hxty.trans hyty.symm), rfl, run_succ hequal ?_⟩
  rw [hnot.step_unary rfl, hcell]
  rfl

theorem Computes.not {operand : Tree} (hoperand : program.Computes scopes operand Ty.bool start middle)
    (h : program.At middle .not .none stop) :
    program.Computes scopes (.not operand) Ty.bool start stop := by
  refine hoperand.unary h rfl fun vars x hx hxty => ?_
  obtain ⟨a, rfl⟩ := Value.exists_bool hxty
  refine ⟨.bool !a, ?_, rfl, ?_⟩
  · simp [Tree.eval?, hx, Value.bool?]
  · cases a <;> rfl

end Computes

section Tests

variable {condition left right : Tree} {sense : Bool}

theorem Tests.not (h : program.Tests scopes condition (!sense) target start stop) :
    program.Tests scopes (.not condition) sense target start stop := by
  intro vars locals stack writes hagrees
  obtain ⟨value, steps, hvalue, hpos, hrun⟩ := h vars locals stack writes hagrees
  have hsense : (!value) = sense ↔ value = !sense := by
    cases value <;> cases sense <;> decide
  refine ⟨!value, steps, ?_, fun heq => hpos (hsense.mp heq), ?_⟩
  · simp [Tree.eval?, hvalue, Value.bool?]
  · rw [hrun]
    simp only [hsense]

theorem tests_literal_jump (h : program.At start .jump (.jump target) stop) :
    program.Tests scopes (.literal (.bool sense)) sense target start stop := by
  intro vars locals stack writes _
  refine ⟨sense, 1, rfl, fun _ => Nat.one_pos, ?_⟩
  rw [run_one, if_pos rfl]
  exact h.step_jump

theorem tests_literal_skip {value : Bool} (h : value ≠ sense) :
    program.Tests scopes (.literal (.bool value)) sense target start start := by
  intro vars locals stack writes _
  refine ⟨value, 0, rfl, fun heq => (h heq).elim, ?_⟩
  rw [if_neg h]
  rfl

theorem Computes.tests (h : program.Computes scopes condition Ty.bool start middle)
    (hjump : program.At middle (if sense then .jumpIfTrue else .jumpIfFalse) (.jump target) stop) :
    program.Tests scopes condition sense target start stop := by
  intro vars locals stack writes hagrees
  obtain ⟨value, steps, hvalue, hty, hrun⟩ := h vars locals stack writes hagrees
  obtain ⟨test, rfl⟩ := Value.exists_bool hty
  exact ⟨test, steps + 1, hvalue, fun _ => Nat.succ_pos _, run_succ hrun (hjump.step_jumpIf test)⟩

theorem eval?_logical {op : LogicalOp} {vars : Variables} {value : Bool}
    (hleft : left.eval? vars = some (.bool value)) :
    (Tree.logical op left right).eval? vars = if value = (op == .or) then some (.bool value)
      else ((right.eval? vars).bind Value.bool?).map .bool := by
  simp only [Tree.eval?, hleft]
  cases (right.eval? vars).bind Value.bool? <;> rfl

/-- The first operand decides if it has the value that the jump is for. -/
theorem Tests.logical_same {op : LogicalOp} (hop : (op == .or) = sense)
    (hleft : program.Tests scopes left sense target start middle)
    (hright : program.Tests scopes right sense target middle stop) :
    program.Tests scopes (.logical op left right) sense target start stop := by
  intro vars locals stack writes hagrees
  obtain ⟨x, steps, hx, hpos, hrun⟩ := hleft vars locals stack writes hagrees
  by_cases hsense : x = sense
  · rw [if_pos hsense] at hrun
    refine ⟨x, steps, ?_, hpos, by rw [hrun, if_pos hsense]⟩
    rw [eval?_logical hx, hop, if_pos hsense]
  · rw [if_neg hsense] at hrun
    obtain ⟨y, steps', hy, hpos', hrun'⟩ := hright vars locals stack writes hagrees
    refine ⟨y, steps + steps', ?_, fun heq => Nat.add_pos_right _ (hpos' heq), ?_⟩
    · rw [eval?_logical hx, hop, if_neg hsense, hy]
      rfl
    · rw [run_trans hrun, hrun']

/-- The first operand skips the second one if it decides against the jump. -/
theorem Tests.logical_skip {op : LogicalOp} (hop : ¬ (op == .or) = sense)
    (hleft : program.Tests scopes left (!sense) stop start middle)
    (hright : program.Tests scopes right sense target middle stop) :
    program.Tests scopes (.logical op left right) sense target start stop := by
  have hdecides : (op == .or) = !sense := Bool.eq_not.mpr hop
  intro vars locals stack writes hagrees
  obtain ⟨x, steps, hx, _, hrun⟩ := hleft vars locals stack writes hagrees
  by_cases hskip : x = !sense
  · have hsense : ¬ x = sense := Bool.eq_not.mp hskip
    rw [if_pos hskip] at hrun
    refine ⟨x, steps, ?_, fun heq => (hsense heq).elim, by rw [hrun, if_neg hsense]⟩
    rw [eval?_logical hx, hdecides, if_pos hskip]
  · rw [if_neg hskip] at hrun
    obtain ⟨y, steps', hy, hpos, hrun'⟩ := hright vars locals stack writes hagrees
    refine ⟨y, steps + steps', ?_, fun heq => Nat.add_pos_right _ (hpos heq), ?_⟩
    · rw [eval?_logical hx, hdecides, if_neg hskip, hy]
      rfl
    · rw [run_trans hrun, hrun']

/-- The value of a condition that is decided by jumps. -/
theorem Tests.computes {otherwise : Nat}
    (h : program.Tests scopes condition false otherwise start middle)
    (htrue : program.At middle .pushTrue .none middle')
    (hjump : program.At middle' .jump (.jump stop) otherwise)
    (hfalse : program.At otherwise .pushFalse .none stop) :
    program.Computes scopes condition Ty.bool start stop := by
  intro vars locals stack writes hagrees
  obtain ⟨value, steps, hvalue, _, hrun⟩ := h vars locals stack writes hagrees
  cases value with
  | false => exact ⟨_, _, hvalue, rfl, run_succ hrun (hfalse.step_push rfl)⟩
  | true =>
    have hpush := run_succ hrun (htrue.step_push rfl)
    exact ⟨_, _, hvalue, rfl, run_succ hpush hjump.step_jump⟩

end Tests

end Program

end StackLowering
