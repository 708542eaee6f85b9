import StackLowering.Bridge
import StackLowering.Flow
import StackLowering.Nest.Resolve
import StackLowering.Options
import StackLowering.Scopes
import StackLowering.Slots
/-!
Lowering as a state machine. The state belongs to one routine, except for the
pool and the bridges, which all routines of a nest share. A lowering that fails
leaves the state as it was at the fault; the brackets around a part of it still
undo what they set up.
-/

namespace StackLowering

/-- A body that runs whenever control leaves the region it belongs to. -/
structure Cleanup where
  body : Tree
  /-- Number of loops and switches around the region. -/
  flowDepth : Nat

/-- The lowered form of a routine. -/
structure Routine where
  owner : Ty
  name : String
  descriptor : String
  code : Code
  slots : List SlotEntry
  frameSize : Nat

/-- What all routines of a nest share. -/
structure Shared where
  pool : Pool
  bridges : Bridges

def Shared.empty : Shared := ⟨.empty, .empty⟩

structure Env where
  nest : Nest
  options : Options

structure State where
  assembler : Assembler
  bridges : Bridges
  data : Scopes
  flows : Flows
  slots : Slots
  /-- Cleanups of the regions around the code, outermost first. -/
  cleanups : List Cleanup
  /-- How many times the value being computed is nested in others; 0 in
  statements, whose values are discarded. -/
  expressionDepth : Nat
  /-- Routines declared in the body so far. -/
  localRoutines : List Routine

/-- Where the routine being lowered is described. -/
def Key.routine : Key RoutineInfo := ⟨"routine"⟩

/-- Type whose code is being lowered, one entry for each type around it. -/
def Key.enclosingType : Key Ty := ⟨"enclosing-type"⟩

namespace State

/-- The state at the start of a routine. -/
def initial (nest : Nest) (shared : Shared) (info : RoutineInfo) : State where
  assembler := .new shared.pool
  bridges := shared.bridges
  data :=
    let types := (nest.enclosing info.owner).reverse ++ [info.owner]
    let scopes := types.foldl (fun scopes ty => scopes.push.set .enclosingType ty) Scopes.empty
    scopes.setRoot .routine info
  flows := []
  slots := .empty
  cleanups := []
  expressionDepth := 0
  localRoutines := []

def shared (state : State) : Shared := ⟨state.assembler.pool, state.bridges⟩

def withShared (state : State) (shared : Shared) : State :=
  { state with
    assembler := { state.assembler with pool := shared.pool }
    bridges := shared.bridges }

def onAssembler (f : Assembler → Assembler) (state : State) : State :=
  { state with assembler := f state.assembler }

def onSlots (f : Slots → Slots) (state : State) : State := { state with slots := f state.slots }

def routine? (state : State) : Option RoutineInfo := state.data.get? .routine

/-- Result type of the routine, or `void`. -/
def result (state : State) : Ty :=
  match state.routine? with
  | some info => info.result
  | none => Ty.void

/-- The innermost type around the code. -/
def currentType (state : State) : Ty := (state.data.get? .enclosingType).getD Ty.root

/-- The types around the code, innermost first. -/
def typeChain (state : State) : List Ty := state.data.getAll .enclosingType

/-- Go into the code of a nested type. -/
def pushType (ty : Ty) (state : State) : State :=
  { state with data := state.data.push.set .enclosingType ty }

def popType (state : State) : State := { state with data := state.data.pop }

def isValueUsed (state : State) : Bool := 0 < state.expressionDepth

/-- Discard a value that was just computed, if nothing consumes it. -/
def discard (ty : Ty) (state : State) : State :=
  if state.isValueUsed then state else state.onAssembler (.pop ty.width)

def pushFlow (flow : Flow) (state : State) : State := { state with flows := flow :: state.flows }

def popFlow (state : State) : State := { state with flows := state.flows.tail }

def pushCleanup (body : Tree) (state : State) : State :=
  { state with cleanups := state.cleanups ++ [⟨body, state.flows.length⟩] }

def popCleanup (state : State) : Option Cleanup × State :=
  (state.cleanups.getLast?, { state with cleanups := state.cleanups.dropLast })

/-- Set aside the cleanups from index `start` on. -/
def takeCleanups (start : Nat) (state : State) : List Cleanup × State :=
  (state.cleanups.drop start, { state with cleanups := state.cleanups.take start })

/-- Put back cleanups that were set aside. -/
def restoreCleanups (taken : List Cleanup) (state : State) : State :=
  { state with cleanups := state.cleanups ++ taken }

/-- Index of the first cleanup inside the loop or switch at `depth`. -/
def firstCleanupInside (depth : Nat) (state : State) : Nat :=
  state.cleanups.findIdx fun cleanup => depth < cleanup.flowDepth

def enterExpression (state : State) : State :=
  { state with expressionDepth := state.expressionDepth + 1 }

def exitExpression (state : State) : State :=
  { state with expressionDepth := state.expressionDepth - 1 }

def withDepth (depth : Nat) (state : State) : State := { state with expressionDepth := depth }

def enterSlotScope : State → State := onSlots Slots.pushScope

def exitSlotScope : State → State := onSlots Slots.popScope

def enterScope (state : State) : State :=
  (state.onAssembler Assembler.enterFrame).onSlots Slots.pushScope

def exitScope (state : State) : State :=
  (state.onSlots Slots.popScope).onAssembler Assembler.exitFrame

/-- Route an access through a bridge where it needs one. -/
def bridged (env : Env) (access : Tree) (state : State) : Option Tree × State :=
  if env.options.bridges then
    match state.bridges.access? env.nest state.currentType access with
    | some (tree, bridges) => (some tree, { state with bridges := bridges })
    | none => (none, state)
  else (none, state)

end State

/-- A step of lowering. The state survives a fault. -/
abbrev Lower := ReaderT Env (ExceptT Fault (StateM State))

namespace Lower

variable {α : Type}

/-- Run a step: its outcome and the state after it. -/
def step (action : Lower α) (env : Env) (state : State) : Except Fault α × State :=
  action env state

def orFail : Except Fault α → Lower α
  | .ok value => pure value
  | .error fault => throw fault

/-- Run `action` between `enter` and `exit`; `exit` also runs after a fault. -/
def bracket (enter exit : State → State) (action : Lower α) : Lower α := fun env state =>
  let (outcome, state) := action env (enter state)
  (outcome, exit state)

/-- The value of `action` is consumed by the code around it. -/
def inExpression (action : Lower α) : Lower α :=
  bracket State.enterExpression State.exitExpression action

/-- Values that `action` leaves are discarded, whatever is around it. -/
def inStatement (action : Lower α) : Lower α := fun env state =>
  bracket (State.withDepth 0) (State.withDepth state.expressionDepth) action env state

/-- Run `action` in a scope of variables, recorded as a bracket of code. -/
def withScope (action : Lower α) : Lower α :=
  bracket State.enterScope State.exitScope action

/-- Run `action` in a scope of variables. -/
def withSlotScope (action : Lower α) : Lower α :=
  bracket State.enterSlotScope State.exitSlotScope action

def nest : Lower Nest := return (← read).nest

def options : Lower Options := return (← read).options

def emit (f : Assembler → Assembler) : Lower Unit := modify (State.onAssembler f)

def op (op : Opcode) : Lower Unit := emit (Assembler.op op)

def newLabel : Lower Label := modifyGet fun state =>
  let (label, assembler) := state.assembler.newLabel
  (label, { state with assembler := assembler })

/-- Bind a label here. -/
def mark (label : Label) : Lower Unit := emit (Assembler.bind label)

def jump (label : Label) : Lower Unit := emit (Assembler.jump .jump label)

def currentType : Lower Ty := return (← get).currentType

def resolve (ty : Ty) : Lower Ty := do
  orFail ((← nest).resolve (← currentType) ty)

def resolveAll (types : List Ty) : Lower (List Ty) := do
  orFail ((← nest).resolveAll (← currentType) types)

def resolveSignature (signature : Signature) : Lower Signature := do
  orFail ((← nest).resolveSignature (← currentType) signature)

def discard (ty : Ty) : Lower Unit := modify (State.discard ty)

def declare (name : String) (ty : Ty) : Lower UInt16 := do
  let outcome ← modifyGet fun state =>
    let (outcome, slots) := state.slots.declare name ty
    (outcome, { state with slots := slots })
  orFail outcome

/-- The slot of a variable that `tree` uses. -/
def require (name : String) (ty : Ty) (tree : Tree) : Lower UInt16 := do
  orFail (((← get).slots.require name ty).mapError (·.withTree tree))

def reserve (name : String) : Lower Unit := modify (State.onSlots (·.reserve name))

/-- A name that no variable of the routine has. -/
def uniqueName (base : String) : Lower String := modifyGet fun state =>
  let (name, slots) := state.slots.uniqueName base
  (name, { state with slots := slots })

/-- The use of a bridge in place of `access`, where it needs one. -/
def bridged (access : Tree) : Lower (Option Tree) := do
  let env ← read
  modifyGet (State.bridged env access)

end Lower

end StackLowering
