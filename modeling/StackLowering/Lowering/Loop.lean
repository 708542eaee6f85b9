import StackLowering.Lowering.Condition
/-!
Loops. The condition is tested at the bottom, so an iteration runs one
conditional jump. A loop over a collection becomes a loop with hidden
variables.
-/

namespace StackLowering.Lowering

open Lower

structure LoopLabels where
  condition : Label
  body : Label
  update : Label
  exit : Label

def newLoopLabels : Lower LoopLabels := do
  let condition ← newLabel
  let body ← newLabel
  let update ← newLabel
  let exit ← newLabel
  return ⟨condition, body, update, exit⟩

/-- The record of a loop whose next round starts at `next`. -/
def LoopLabels.flow (labels : LoopLabels) (label : Option String) (next : Label) : Flow where
  kind := .loop
  label := label
  entry := labels.condition
  bodyEntry := labels.body
  bodyExit := next
  exit := labels.exit

/-- A loop with a section run before it and one run after each round. What the
first section declares is visible in the loop only. -/
def forLoop (recur : Recur) (label : Option String) (init : List Tree) (condition : Option Tree)
    (update : List Tree) (body : Tree) : Lower Unit :=
  withScope do
    recur.statements init
    let labels ← newLoopLabels
    jump labels.condition
    modify (State.pushFlow (labels.flow label labels.update))
    mark labels.body
    recur.inScope body
    mark labels.update
    recur.statements update
    modify State.popFlow
    mark labels.condition
    match condition with
    | some condition => jumpIf recur condition true labels.body
    | none => jump labels.body
    mark labels.exit

def whileLoop (recur : Recur) (label : Option String) (condition body : Tree) (bodyFirst : Bool) :
    Lower Unit := do
  let labels ← newLoopLabels
  unless bodyFirst do
    jump labels.condition
  modify (State.pushFlow (labels.flow label labels.condition))
  mark labels.body
  recur.inScope body
  modify State.popFlow
  mark labels.condition
  jumpIf recur condition true labels.body
  mark labels.exit

/-- The loop over an array of type `arrayTy`, held in the variable `array` and
indexed by the variable `index`. -/
def indexedLoop (label : Option String) (binder : String) (ty : Ty) (source body : Tree)
    (arrayTy : Ty) (array index : String) : Tree :=
  let element := arrayTy.element?.getD ty
  let readArray := Tree.readLocal array arrayTy
  let readIndex := Tree.readLocal index Ty.int
  let load := Tree.arrayLoad readArray readIndex element
  .forLoop label
    [.declareLocal array arrayTy (some source), .declareLocal index Ty.int (some (.int 0))]
    (some (.compare .lt readIndex (.arrayLength readArray)))
    [.assignLocal index Ty.int (.arith .add Ty.int readIndex (.int 1))]
    (.block [.declareLocal binder ty (some (if element = ty then load else .cast ty load)), body])

/-- The loop over an iterable, whose iterator is held in the variable `iterator`. -/
def iteratorLoop (label : Option String) (binder : String) (ty : Ty) (source body : Tree)
    (iterator : String) : Tree :=
  let call := fun (name : String) (result : Ty) =>
    Tree.invoke .interface Ty.iterator ⟨name, result, []⟩
      (some (.readLocal iterator Ty.iterator)) []
  let start := Tree.invoke .interface Ty.iterable ⟨"iterator", Ty.iterator, []⟩ (some source) []
  let next := call "next" Ty.root
  .forLoop label
    [.declareLocal iterator Ty.iterator (some start)]
    (some (call "hasNext" Ty.bool))
    []
    (.block [.declareLocal binder ty (some (if ty = Ty.root then next else .cast ty next)), body])

def forEach (recur : Recur) (label : Option String) (binder : String) (ty : Ty)
    (iteration : Iteration) (source body : Tree) : Lower Unit :=
  withSlotScope do
    let ty ← resolve ty
    match iteration with
    | .indexed =>
      let arrayTy ← resolve source.valueType
      let array ← uniqueName "$array"
      let index ← uniqueName "$arrayIndex"
      recur (indexedLoop label binder ty source body arrayTy array index)
    | .iterator =>
      let iterator ← uniqueName "$iterator"
      recur (iteratorLoop label binder ty source body iterator)

end StackLowering.Lowering
