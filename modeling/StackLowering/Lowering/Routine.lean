import StackLowering.Lowering.Handler
/-!
Lowering a whole routine. Every routine has a state of its own; only the pool
and the bridges go from one to the next, also when a routine fails.
-/

namespace StackLowering

def RoutineDecl.info (decl : RoutineDecl) : RoutineInfo :=
  ⟨decl.owner, decl.name, decl.result, decl.isStatic⟩

/-- What a finished routine leaves behind. -/
structure RoutineOutput where
  code : Code
  slots : List SlotEntry
  frameSize : Nat
  localRoutines : List Routine

def State.finish (state : State) : Except Fault RoutineOutput := do
  let code ← state.assembler.finish
  return ⟨code, state.slots.table.toList, state.slots.frameSize, state.localRoutines⟩

namespace Lowering

open Lower

def declareParam (param : Param) : Lower Unit := do
  let ty ← resolve param.ty
  let _ ← declare param.name ty

/-- Lower the body of a routine. All names in it are reserved first, so hidden
variables get other names. A routine without a result that runs off its end
returns there. -/
def routineBody (recur : Recur) (decl : RoutineDecl) : Lower Unit := do
  decl.body.variableNames.forM reserve
  decl.params.forM declareParam
  recur.statement decl.body
  if decl.result.isVoid && !decl.body.endsInTransfer then
    op .returnVoid

/-- A lowered routine and the routines declared in it. -/
def assembleRoutine (decl : RoutineDecl) (output : RoutineOutput) : Routine × List Routine :=
  (⟨decl.owner, decl.name, decl.descriptor, output.code, output.slots, output.frameSize⟩,
    output.localRoutines)

/-- Lower a routine. -/
def routine (recur : Recur) (decl : RoutineDecl) (env : Env) (shared : Shared) :
    Except Fault (Routine × List Routine) × Shared :=
  let (outcome, state) := routineBody recur decl env (.initial env.nest shared decl.info)
  let result := do
    outcome
    let output ← state.finish
    return assembleRoutine decl output
  (result, state.shared)

/-- Lower a routine declared in the body of another, as a routine of the type
around it. Nothing is emitted in place. -/
def localRoutine (recur : Recur) (method : Method) : Lower Unit := do
  match RoutineDecl.ofMethod? (← currentType) method with
  | none => pure ()
  | some decl =>
    let env ← read
    let result ← modifyGet fun state =>
      let (result, shared) := routine recur decl env state.shared
      (result, state.withShared shared)
    let (lowered, nested) ← orFail result
    modify fun state =>
      { state with localRoutines := state.localRoutines ++ lowered :: nested }

end Lowering

end StackLowering
