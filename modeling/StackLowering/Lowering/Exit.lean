import StackLowering.Lowering.Handler
/-!
Transfers of control. A transfer out of a region with a cleanup runs a copy of
the cleanup first, the innermost one first. While a cleanup is lowered, itself
and all cleanups inside it are set aside, so a transfer in a cleanup never
enters it again.
-/

namespace StackLowering.Lowering

open Lower

/-- Lower a copy of the cleanup at `index`. -/
def inlineCleanup (recur : Recur) (index : Nat) : Lower Unit := fun env state =>
  let (taken, inner) := state.takeCleanups index
  let body := match taken with
    | cleanup :: _ => recur.inScope cleanup.body
    | [] => pure ()
  bracket (fun _ => inner) (State.restoreCleanups taken) body env state

/-- Lower a copy of every cleanup from index `start` on, innermost first. -/
def inlineCleanups (recur : Recur) (start : Nat) : Lower Unit := do
  let count := (← get).cleanups.length
  (List.range (count - start)).forM fun i => inlineCleanup recur (count - 1 - i)

/-- Jump to `target`, a label of the loop or switch at `depth`, and run the
cleanups inside it first. -/
def leaveTo (recur : Recur) (depth : Nat) (target : Label) : Lower Unit := do
  inlineCleanups recur ((← get).firstCleanupInside depth)
  jump target

def breakTo (recur : Recur) (label : Option String) : Lower Unit := do
  match (← get).flows.breakTarget? label with
  | some (depth, flow) => leaveTo recur depth flow.exit
  | none => throw (.breakOutsideConstruct label)

def continueTo (recur : Recur) (label : Option String) : Lower Unit := do
  match (← get).flows.continueTarget? label with
  | some (depth, flow) => leaveTo recur depth flow.bodyExit
  | none => throw (.continueOutsideLoop label)

/-- Depth and default arm of the innermost switch. -/
def defaultTarget : Lower (Nat × Label) := do
  match (← get).flows.innermostSwitch? with
  | some (depth, flow) => return (depth, flow.bodyExit)
  | none => throw .redirectOutsideSwitch

def redirect (recur : Recur) : Lower Unit := do
  let (depth, target) ← defaultTarget
  leaveTo recur depth target

def raise (recur : Recur) (value : Tree) : Lower Unit := do
  recur.value value
  op .raise

/-- Return a value. It is kept in a hidden variable while cleanups run. -/
def returnValue (recur : Recur) (value : Tree) : Lower Unit := do
  let declared := (← get).result
  let ty ← if declared.isVoid then resolve value.valueType else pure declared
  recur.value value
  if (← get).cleanups.isEmpty then
    emit (.ret ty)
  else
    withSlotScope do
      let name ← uniqueName "$result"
      let slot ← declare name ty
      emit (.setLocal slot)
      inlineCleanups recur 0
      emit (.getLocal slot)
      emit (.ret ty)

def ret (recur : Recur) : Option Tree → Lower Unit
  | some value => returnValue recur value
  | none => do
    inlineCleanups recur 0
    op .returnVoid

end StackLowering.Lowering
