import StackLowering.Lowering.Exit
/-!
Exceptions and monitors. A cleanup is copied to every way out of its region:
after the body, after each catch clause, into each transfer that leaves the
region, and into a handler of any exception that raises it again.
-/

namespace StackLowering.Lowering

open Lower

/-- Lower a catch clause for the code between `start` and `stop`, and return the
range of its own code. -/
def catchClause (recur : Recur) (start stop exit : Label) (cleanupIndex : Nat) (clause : Catch) :
    Lower (Label × Label) := do
  let ty ← resolve clause.ty
  let handler ← newLabel
  let handlerEnd ← newLabel
  mark handler
  emit (.region start stop handler (some ty.digest))
  withScope do
    let slot ← declare clause.binder ty
    emit (.setLocal slot)
    recur.statement clause.body
  mark handlerEnd
  inlineCleanups recur cleanupIndex
  jump exit
  return (handler, handlerEnd)

/-- Lower the handler that runs a cleanup for an exception raised in one of the
ranges and raises the exception again. -/
def catchAll (recur : Recur) (ranges : List (Label × Label)) (cleanup : Tree) : Lower Unit := do
  let handler ← newLabel
  mark handler
  ranges.forM fun (start, stop) => emit (.region start stop handler none)
  withSlotScope do
    let name ← uniqueName "$throwable"
    let slot ← declare name Ty.throwable
    emit (.setLocal slot)
    recur.inScope cleanup
    emit (.getLocal slot)
    op .raise

def guarded (recur : Recur) (body : Tree) (catches : List Catch) (cleanup : Option Tree) :
    Lower Unit := do
  let start ← newLabel
  let stop ← newLabel
  let exit ← newLabel
  let cleanupIndex := (← get).cleanups.length
  if let some tree := cleanup then
    modify (State.pushCleanup tree)
  mark start
  recur.inScope body
  mark stop
  inlineCleanups recur cleanupIndex
  jump exit
  let ranges ← catches.mapM (catchClause recur start stop exit cleanupIndex)
  if cleanup.isSome then
    if let some pending ← modifyGet State.popCleanup then
      catchAll recur ((start, stop) :: ranges) pending.body
  mark exit

/-- Hold the monitor of an object while the body runs. The object is kept in a
hidden variable, and a cleanup releases its monitor on every way out. -/
def synchronized (recur : Recur) (lock body : Tree) : Lower Unit :=
  withSlotScope do
    let ty ← resolve lock.valueType
    let name ← uniqueName "$lock"
    recur (.block
      [.monitorEnter (.block [lock, .declareLocal name ty (some (.dup ty))]),
       .guarded body [] (some (.monitorExit (.readLocal name ty)))])

def monitorEnter (recur : Recur) (value : Tree) : Lower Unit := do
  recur.value value
  op .monitorEnter

def monitorExit (recur : Recur) (value : Tree) : Lower Unit := do
  recur.value value
  op .monitorExit

end StackLowering.Lowering
