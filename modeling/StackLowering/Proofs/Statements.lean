import StackLowering.Proofs.Simulation
/-!
Code that behaves like a statement. From a frame that agrees with the variables
of an evaluation, the machine does the writes that the evaluation does, and goes
on where it goes on: behind the code, at the target of a transfer, or nowhere if
the routine returns or the evaluation has no end.
-/

namespace StackLowering

/-- Code, with the positions of its labels and the static fields that writes go to. -/
structure Image where
  program : Program
  position : Label → Nat
  frameSize : Nat
  records : Write → Digest × Int32 → Prop

/-- What is known about variables and the frame at a point of the code. -/
abbrev Assertion := Variables → List Int32 → Prop

theorem Execution.andThen_normal (execution : Execution) :
    execution.andThen (fun store => (.normal, store)) = execution := by
  obtain ⟨completion, store⟩ := execution
  cases completion <;> rfl

variable {name : String} {store : Store} {after' : Assertion} {locals : List Int32}
  {binding : Binding}

namespace Image

variable {image : Image} {flows : Flows} {before after abrupt : Assertion}
  {start middle stop target fuel : Nat} {machine : Machine} {execution : Execution}

/-- The machine has done the writes of an evaluation. -/
def Logs (image : Image) (writes : List Write) (log : List (Digest × Int32)) : Prop :=
  List.Forall₂ image.records writes log

/-- The machine comes to `pc` with the variables and writes of the store. -/
def Arrives (image : Image) (machine : Machine) (pc : Nat) (assertion : Assertion)
    (store : Store) : Prop :=
  ∃ steps locals log, image.program.run steps machine = .running ⟨pc, [], locals, log⟩ ∧
    assertion store.vars locals ∧ image.Logs store.writes log

/-- The machine does what an execution did. It goes on behind the code, at the
target of a transfer, or out of the routine; and if the fuel ran out, it takes
at least as many steps as there were units of fuel. -/
def Matches (image : Image) (flows : Flows) (after abrupt : Assertion) (stop fuel : Nat)
    (machine : Machine) : Execution → Prop
  | (.normal, store) => image.Arrives machine stop after store
  | (.broke label, store) => ∃ depth flow, flows.breakTarget? label = some (depth, flow) ∧
      image.Arrives machine (image.position flow.exit) abrupt store
  | (.continued label, store) => ∃ depth flow, flows.continueTarget? label = some (depth, flow) ∧
      image.Arrives machine (image.position flow.bodyExit) abrupt store
  | (.returned value, store) => ∃ steps log,
      image.program.run steps machine = .halted (.returned (value.map Value.cell)) log ∧
        image.Logs store.writes log
  | (.unfinished, store) => ∃ steps after, fuel ≤ steps ∧
      image.program.run steps machine = .running after ∧ image.Logs store.writes after.writes
  | (.stuck, _) => False

/-- The code from `start` to `stop` performs an action: started where the variables
are as in `before`, it leaves them as in `after`, or as in `abrupt` if it is left
by a transfer. -/
def Performs (image : Image) (flows : Flows) (action : Nat → Store → Execution)
    (before after abrupt : Assertion) (start stop : Nat) : Prop :=
  ∀ fuel store locals log, before store.vars locals → image.Logs store.writes log →
    image.Matches flows after abrupt stop fuel ⟨start, [], locals, log⟩ (action fuel store)

theorem Arrives.prepend {machine' : Machine} {steps pc : Nat}
    (hrun : image.program.run steps machine = .running machine')
    (h : image.Arrives machine' pc after store) : image.Arrives machine pc after store := by
  obtain ⟨more, locals, log, hmore, hrest⟩ := h
  exact ⟨steps + more, locals, log, (Program.run_trans hrun more).trans hmore, hrest⟩

/-- Steps before an execution count as fuel. -/
theorem Matches.prepend {machine' : Machine} {steps fuel' : Nat}
    (hrun : image.program.run steps machine = .running machine')
    (h : image.Matches flows after abrupt stop fuel machine' execution)
    (hfuel : fuel' ≤ steps + fuel) :
    image.Matches flows after abrupt stop fuel' machine execution := by
  obtain ⟨completion, store⟩ := execution
  cases completion with
  | normal => exact Arrives.prepend hrun h
  | broke label | continued label =>
    obtain ⟨depth, flow, htarget, harrives⟩ := h
    exact ⟨depth, flow, htarget, harrives.prepend hrun⟩
  | returned value =>
    obtain ⟨more, log, hmore, hlog⟩ := h
    exact ⟨steps + more, log, (Program.run_trans hrun more).trans hmore, hlog⟩
  | unfinished =>
    obtain ⟨more, after, hle, hmore, hlog⟩ := h
    exact ⟨steps + more, after, by omega, (Program.run_trans hrun more).trans hmore, hlog⟩
  | stuck => exact h

theorem Matches.weaken {abrupt' : Assertion}
    (h : image.Matches flows after abrupt stop fuel machine execution)
    (hafter : ∀ vars locals, after vars locals → after' vars locals)
    (habrupt : ∀ vars locals, abrupt vars locals → abrupt' vars locals) :
    image.Matches flows after' abrupt' stop fuel machine execution := by
  obtain ⟨completion, store⟩ := execution
  cases completion with
  | normal =>
    obtain ⟨steps, locals, log, hrun, hstore, hlog⟩ := h
    exact ⟨steps, locals, log, hrun, hafter _ _ hstore, hlog⟩
  | broke label | continued label =>
    obtain ⟨depth, flow, htarget, steps, locals, log, hrun, hstore, hlog⟩ := h
    exact ⟨depth, flow, htarget, steps, locals, log, hrun, habrupt _ _ hstore, hlog⟩
  | returned value | unfinished | stuck => exact h

/-- After a normal end, what follows has to match. -/
theorem Matches.andThen {next : Store → Execution}
    (h : image.Matches flows after abrupt middle fuel machine execution)
    (hnext : ∀ store locals log, after store.vars locals → image.Logs store.writes log →
      image.Matches flows after' abrupt stop fuel ⟨middle, [], locals, log⟩ (next store)) :
    image.Matches flows after' abrupt stop fuel machine (execution.andThen next) := by
  obtain ⟨completion, store⟩ := execution
  cases completion with
  | normal =>
    obtain ⟨steps, locals, log, hrun, hstore, hlog⟩ := h
    exact (hnext store locals log hstore hlog).prepend hrun (Nat.le_add_left _ _)
  | broke label | continued label | returned value | unfinished | stuck => exact h

section Composition

variable {action next : Nat → Store → Execution} {abrupt' : Assertion}

theorem Performs.weaken {before' : Assertion}
    (h : image.Performs flows action before after abrupt start stop)
    (hbefore : ∀ vars locals, before' vars locals → before vars locals)
    (hafter : ∀ vars locals, after vars locals → after' vars locals)
    (habrupt : ∀ vars locals, abrupt vars locals → abrupt' vars locals) :
    image.Performs flows action before' after' abrupt' start stop := by
  intro fuel store locals log hstore hlog
  exact (h fuel store locals log (hbefore _ _ hstore) hlog).weaken hafter habrupt

theorem Performs.congr {action' : Nat → Store → Execution}
    (h : image.Performs flows action before after abrupt start stop)
    (heq : ∀ fuel store, action' fuel store = action fuel store) :
    image.Performs flows action' before after abrupt start stop := by
  intro fuel store
  rw [heq]
  exact h fuel store

theorem performs_skip :
    image.Performs flows (fun _ store => (.normal, store)) before before abrupt start start := by
  intro fuel store locals log hstore hlog
  exact ⟨0, locals, log, rfl, hstore, hlog⟩

theorem Performs.andThen {before' : Assertion}
    (h : image.Performs flows action before before' abrupt start middle)
    (hnext : image.Performs flows next before' after abrupt middle stop) :
    image.Performs flows (fun fuel store => (action fuel store).andThen (next fuel))
      before after abrupt start stop := by
  intro fuel store locals log hstore hlog
  apply (h fuel store locals log hstore hlog).andThen
  intro store locals log hstore hlog
  exact hnext fuel store locals log hstore hlog

theorem Performs.jumpTo (hjump : image.program.At start .jump (.jump middle) target)
    (h : image.Performs flows action before after abrupt middle stop) :
    image.Performs flows action before after abrupt start stop := by
  intro fuel store locals log hstore hlog
  have hrun : image.program.run 1 ⟨start, [], locals, log⟩ =
      .running ⟨middle, [], locals, log⟩ := (Program.run_one _ _).trans hjump.step_jump
  exact (h fuel store locals log hstore hlog).prepend hrun (Nat.le_add_left _ _)

theorem Performs.jumpFrom (h : image.Performs flows action before after abrupt start middle)
    (hjump : image.program.At middle .jump (.jump stop) target) :
    image.Performs flows action before after abrupt start stop := by
  have hskip : image.Performs flows (fun _ store => (.normal, store)) after after abrupt
      middle stop := performs_skip.jumpTo hjump
  have hboth := h.andThen hskip
  simp only [Execution.andThen_normal] at hboth
  exact hboth

end Composition

section Frames

variable {scopes scopes' : ScopeStack} {action : Nat → Store → Execution}

/-- The frame agrees with the variables of these scopes. -/
def Frame (image : Image) (scopes : ScopeStack) : Assertion := fun vars locals =>
  scopes.Agrees vars locals ∧ locals.length = image.frameSize

/-- What a statement in a scope inside of these ones leaves if a transfer leaves it. -/
def Outer (image : Image) (scopes : ScopeStack) : Assertion := fun vars locals =>
  image.Frame scopes vars.tail locals

theorem Frame.outer {vars : Variables} (h : image.Frame scopes vars locals) :
    image.Outer scopes.tail vars locals :=
  ⟨h.1.tail, h.2⟩

theorem Matches.leaveScope {completion : Completion}
    (h : image.Matches flows (image.Outer scopes) (image.Outer scopes) stop fuel machine
      (completion, store)) :
    image.Matches flows (image.Frame scopes) (image.Frame scopes) stop fuel machine
      (completion, { store with vars := store.vars.tail }) := by
  cases completion with
  | normal | broke label | continued label | returned value | unfinished | stuck => exact h

theorem Performs.inScope
    (h : image.Performs flows action (image.Frame ([] :: scopes)) (image.Frame scopes')
      (image.Outer scopes) start stop)
    (htail : scopes'.tail = scopes) :
    image.Performs flows (fun fuel => Store.inScope (action fuel)) (image.Frame scopes)
      (image.Frame scopes) (image.Frame scopes) start stop := by
  subst htail
  intro fuel store locals log hstore hlog
  have hinner := h fuel { store with vars := [] :: store.vars } locals log
    ⟨hstore.1.push, hstore.2⟩ hlog
  exact (hinner.weaken (fun _ _ => Frame.outer) fun _ _ => id).leaveScope

end Frames

section Simple

variable {scopes : ScopeStack} {tree : Tree} {ty : Ty}

/-- Code behind the value of an expression does what the execution does with the value. -/
theorem performs_withValue {next : Store → Value → Execution}
    (h : image.program.Computes scopes tree ty start middle)
    (hnext : ∀ fuel store value locals log, image.Frame scopes store.vars locals →
      image.Logs store.writes log → value.ty = ty →
      image.Matches flows after abrupt stop fuel ⟨middle, [value.cell], locals, log⟩
        (next store value)) :
    image.Performs flows (fun _ store => store.withValue tree (next store)) (image.Frame scopes)
      after abrupt start stop := by
  intro fuel store locals log hstore hlog
  obtain ⟨value, steps, hvalue, hty, hrun⟩ := h store.vars locals [] log hstore.1
  have hwith : store.withValue tree (next store) = next store value := by
    rw [Store.withValue, Store.eval?, hvalue]
  beta_reduce
  rw [hwith]
  exact (hnext fuel store value locals log hstore hlog hty).prepend hrun (Nat.le_add_left _ _)

theorem arrives_step {log : List (Digest × Int32)}
    (hstep : image.program.step machine = .running ⟨stop, [], locals, log⟩)
    (hstore : after store.vars locals) (hlog : image.Logs store.writes log) :
    image.Arrives machine stop after store :=
  ⟨1, locals, log, (Program.run_one _ _).trans hstep, hstore, hlog⟩

theorem performs_pop (h : image.program.Computes scopes tree ty start middle)
    (hpop : image.program.At middle .pop .none stop) :
    image.Performs flows (fun _ store => store.withValue tree fun _ => (.normal, store))
      (image.Frame scopes) (image.Frame scopes) abrupt start stop := by
  refine performs_withValue h fun fuel store value locals log hstore hlog _ => ?_
  exact arrives_step hpop.step_pop hstore hlog

theorem performs_declare {slots : Slots} {scope : List SlotEntry} {outer : ScopeStack}
    {slot : UInt16} (h : image.program.Computes (scope :: outer) tree ty start middle)
    (hset : image.program.At middle (accessLocal .setLocal .setLocalWide slot).1
      ((accessLocal .setLocal .setLocalWide slot).2.map image.position) stop)
    (hslot : slot.toNat < image.frameSize)
    (hscopes : slots.Represents (ScopeStack.declare ⟨name, ty, slot⟩ (scope :: outer))) :
    image.Performs flows
      (fun _ store => store.withValue tree fun value => store.declare name value)
      (image.Frame (scope :: outer))
      (image.Frame (ScopeStack.declare ⟨name, ty, slot⟩ (scope :: outer))) abrupt start stop := by
  refine performs_withValue h fun fuel store value locals log hstore hlog hty => ?_
  subst hty
  have hlocal : slot.toNat < locals.length := hstore.2.symm ▸ hslot
  refine arrives_step (hset.step_setLocal hlocal) ⟨?_, ?_⟩ hlog
  · exact hstore.1.declare hlocal hscopes.distinct
  · rw [List.length_set, hstore.2]

theorem Frame.assign {slots : Slots} {value : Value} (h : image.Frame scopes store.vars locals)
    (hscopes : slots.Represents scopes) (hvisible : scopes.visible? name = some binding)
    (hty : value.ty = binding.ty) :
    ∃ vars, store.assign name value = (.normal, { store with vars := vars }) ∧
      image.Frame scopes vars (locals.set binding.slot.toNat value.cell) := by
  obtain ⟨vars, hvars, hagrees⟩ := h.1.assign hvisible hty hscopes.distinct
  refine ⟨vars, ?_, hagrees, ?_⟩
  · rw [Store.assign, hvars]
  · rw [List.length_set, h.2]

theorem performs_assign {slots : Slots}
    (h : image.program.Computes scopes tree binding.ty start middle)
    (hset : image.program.At middle (accessLocal .setLocal .setLocalWide binding.slot).1
      ((accessLocal .setLocal .setLocalWide binding.slot).2.map image.position) stop)
    (hslot : binding.slot.toNat < image.frameSize) (hscopes : slots.Represents scopes)
    (hvisible : scopes.visible? name = some binding) :
    image.Performs flows
      (fun _ store => store.withValue tree fun value => store.assign name value)
      (image.Frame scopes) (image.Frame scopes) abrupt start stop := by
  refine performs_withValue h fun fuel store value locals log hstore hlog hty => ?_
  obtain ⟨vars, hassign, hframe⟩ := hstore.assign hscopes hvisible hty
  rw [hassign]
  exact arrives_step (hset.step_setLocal (hstore.2.symm ▸ hslot)) hframe hlog

/-- An assignment that adds a constant to the variable. -/
theorem performs_increment {slots : Slots} {delta : Int16}
    (hincrement : image.program.At start .incLocal (.increment binding.slot delta) stop)
    (hscopes : slots.Represents scopes) (hvisible : scopes.visible? name = some binding)
    (hty : binding.ty = Ty.int) (hvalue : ∀ vars x, Variables.lookup? vars name = some (.int x) →
      tree.eval? vars = some (.int (x + delta.toInt32))) :
    image.Performs flows
      (fun _ store => store.withValue tree fun value => store.assign name value)
      (image.Frame scopes) (image.Frame scopes) abrupt start stop := by
  intro fuel store locals log hstore hlog
  obtain ⟨old, hold, holdTy, hcell⟩ := hstore.1.lookup hvisible
  obtain ⟨x, rfl⟩ := Value.exists_int (holdTy.trans hty)
  have hwith : store.withValue tree (fun value => store.assign name value) =
      store.assign name (.int (x + delta.toInt32)) := by
    rw [Store.withValue, Store.eval?, hvalue store.vars x hold]
  have hnew : (Value.int (x + delta.toInt32)).ty = binding.ty := hty.symm
  obtain ⟨vars, hassign, hframe⟩ := hstore.assign hscopes hvisible hnew
  beta_reduce
  rw [hwith, hassign]
  exact arrives_step (hincrement.step_increment hcell) hframe hlog

/-- A static field is written. -/
theorem performs_write {owner : Ty} {field : Digest} {index : UInt16}
    (h : image.program.Computes scopes tree ty start middle)
    (hset : image.program.At middle .setStatic (.short index) stop)
    (hfield : image.program.pool.get? index.toNat = some (.digest field))
    (hrecords : ∀ value : Value, image.records ⟨owner, name, value⟩ (field, value.cell)) :
    image.Performs flows
      (fun _ store => store.withValue tree fun value => store.write owner name value)
      (image.Frame scopes) (image.Frame scopes) abrupt start stop := by
  refine performs_withValue h fun fuel store value locals log hstore hlog _ => ?_
  refine arrives_step (hset.step_writeStatic hfield) hstore ?_
  exact List.rel_append hlog (.cons (hrecords value) .nil)

theorem performs_returnValue (h : image.program.Computes scopes tree ty start middle)
    (hreturn : image.program.At middle .returnValue .none target) :
    image.Performs flows
      (fun _ store => store.withValue tree fun value => (.returned value, store))
      (image.Frame scopes) after abrupt start stop := by
  refine performs_withValue h fun fuel store value locals log hstore hlog _ => ?_
  exact ⟨1, log, (Program.run_one _ _).trans hreturn.step_returnValue, hlog⟩

theorem performs_returnVoid (hreturn : image.program.At start .returnVoid .none target) :
    image.Performs flows (fun _ store => (.returned none, store)) before after abrupt
      start stop := by
  intro fuel store locals log _ hlog
  exact ⟨1, log, (Program.run_one _ _).trans hreturn.step_returnVoid, hlog⟩

theorem performs_break {label : Option String} {depth : Nat} {flow : Flow}
    (hflow : flows.breakTarget? label = some (depth, flow))
    (hjump : image.program.At start .jump (.jump (image.position flow.exit)) target)
    (habrupt : ∀ vars locals, before vars locals → abrupt vars locals) :
    image.Performs flows (fun _ store => (.broke label, store)) before after abrupt
      start stop := by
  intro fuel store locals log hstore hlog
  exact ⟨depth, flow, hflow, arrives_step hjump.step_jump (habrupt _ _ hstore) hlog⟩

theorem performs_continue {label : Option String} {depth : Nat} {flow : Flow}
    (hflow : flows.continueTarget? label = some (depth, flow))
    (hjump : image.program.At start .jump (.jump (image.position flow.bodyExit)) target)
    (habrupt : ∀ vars locals, before vars locals → abrupt vars locals) :
    image.Performs flows (fun _ store => (.continued label, store)) before after abrupt
      start stop := by
  intro fuel store locals log hstore hlog
  exact ⟨depth, flow, hflow, arrives_step hjump.step_jump (habrupt _ _ hstore) hlog⟩

end Simple

section Branches

variable {scopes : ScopeStack} {condition : Tree} {onTrue onFalse : Nat → Store → Execution}

/-- A decision leads to the code for its value. -/
theorem performs_branch {action : Nat → Store → Execution}
    (haction : ∀ fuel store value, store.test? condition = some value →
      action fuel store = if value then onTrue fuel store else onFalse fuel store)
    (htest : image.program.Tests scopes condition false target start middle)
    (htrue : image.Performs flows onTrue (image.Frame scopes) after abrupt middle stop)
    (hfalse : image.Performs flows onFalse (image.Frame scopes) after abrupt target stop) :
    image.Performs flows action (image.Frame scopes) after abrupt start stop := by
  intro fuel store locals log hstore hlog
  obtain ⟨value, steps, hvalue, _, hrun⟩ := htest store.vars locals [] log hstore.1
  have htested : store.test? condition = some value := by
    rw [Store.test?, Store.eval?, hvalue]
    rfl
  rw [haction fuel store value htested]
  cases value with
  | true => exact (htrue fuel store locals log hstore hlog).prepend hrun (Nat.le_add_left _ _)
  | false => exact (hfalse fuel store locals log hstore hlog).prepend hrun (Nat.le_add_left _ _)

end Branches

section Loops

variable (flow : Flow) {frame : Assertion} {body update : Nat → Store → Execution}
  {test : Store → Option Bool} {condition : Nat}

/-- A loop takes the transfers of its body that are meant for it and hands on
the others. -/
theorem Matches.afterBody {next : Store → Execution} (hkind : flow.kind = .loop)
    (hexit : image.position flow.exit = stop)
    (h : image.Matches (flow :: flows) frame frame (image.position flow.bodyExit) fuel machine
      execution)
    (hnext : ∀ store locals log, frame store.vars locals → image.Logs store.writes log →
      image.Matches flows frame frame stop fuel ⟨image.position flow.bodyExit, [], locals, log⟩
        (next store)) :
    image.Matches flows frame frame stop fuel machine
      (Execution.afterBody flow.label execution next) := by
  have goes {store : Store} (harrives : image.Arrives machine (image.position flow.bodyExit) frame store) :
      image.Matches flows frame frame stop fuel machine (next store) := by
    obtain ⟨steps, locals, log, hrun, hstore, hlog⟩ := harrives
    exact (hnext store locals log hstore hlog).prepend hrun (Nat.le_add_left _ _)
  obtain ⟨completion, store⟩ := execution
  cases completion with
  | normal => exact goes h
  | broke label =>
    obtain ⟨depth, found, hfound, harrives⟩ := h
    rw [Flows.breakTarget?, Flows.find?] at hfound
    rw [Execution.afterBody, Execution.reaches]
    split_ifs at hfound ⊢
    · obtain ⟨_, rfl⟩ := Prod.mk.inj (Option.some.inj hfound)
      exact hexit ▸ harrives
    · exact ⟨depth, found, hfound, harrives⟩
  | continued label =>
    obtain ⟨depth, found, hfound, harrives⟩ := h
    rw [Flows.continueTarget?, Flows.find?, hkind, beq_self_eq_true, Bool.true_and] at hfound
    rw [Execution.afterBody, Execution.reaches]
    split_ifs at hfound ⊢
    · obtain ⟨_, rfl⟩ := Prod.mk.inj (Option.some.inj hfound)
      exact goes harrives
    · exact ⟨depth, found, hfound, harrives⟩
  | returned value | unfinished | stuck => exact h

/-- The test at the bottom of a loop. -/
def Repeats (image : Image) (frame : Assertion) (test : Store → Option Bool)
    (start condition stop : Nat) : Prop :=
  ∀ store locals log, frame store.vars locals → ∃ value steps, test store = some value ∧
    (value = true → 0 < steps) ∧
    image.program.run steps ⟨condition, [], locals, log⟩ =
      .running ⟨if value = true then start else stop, [], locals, log⟩

/-- The rounds of a loop, from the test on. Each round takes a unit of fuel, and
the machine at least the step that jumps back to the body. -/
theorem performs_rounds (hkind : flow.kind = .loop) (hexit : image.position flow.exit = stop)
    (htest : image.Repeats frame test start condition stop)
    (hbody : image.Performs (flow :: flows) body frame frame frame start
      (image.position flow.bodyExit))
    (hupdate : image.Performs flows update frame frame frame (image.position flow.bodyExit)
      condition) :
    image.Performs flows (Store.rounds flow.label test body update) frame frame frame
      condition stop := by
  intro fuel
  induction fuel with
  | zero =>
    intro store locals log _ hlog
    exact ⟨0, _, Nat.le_refl _, rfl, hlog⟩
  | succ fuel ih =>
    intro store locals log hstore hlog
    obtain ⟨value, steps, hvalue, hsteps, hrun⟩ := htest store locals log hstore
    rw [Store.rounds, hvalue]
    cases value with
    | false => exact ⟨steps, locals, log, hrun, hstore, hlog⟩
    | true =>
      have hround := (hbody fuel store locals log hstore hlog).afterBody flow hkind hexit
        fun store locals log hstore hlog =>
          (hupdate fuel store locals log hstore hlog).andThen ih
      have hpos := hsteps rfl
      exact hround.prepend hrun (by omega)

end Loops

end Image

end StackLowering
