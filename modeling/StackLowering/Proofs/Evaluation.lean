import StackLowering.Proofs.Machine
/-!
Direct evaluation of structured trees over ints and booleans. Variables are
lexically scoped: the sides of a branch and the body of a loop have scopes of
their own, a loop with an initial section has one around it, and a sequence has
none. Evaluation is given fuel, of which every round of a loop takes one unit.
-/

namespace StackLowering

inductive Value where
  | int (value : Int32)
  | bool (value : Bool)
deriving DecidableEq

namespace Value

def ty : Value → Ty
  | int _ => Ty.int
  | bool _ => Ty.bool

/-- The value as a cell of the machine. -/
def cell : Value → Int32
  | int value => value
  | bool value => boolCell value

def int? : Value → Option Int32
  | int value => some value
  | bool _ => none

def bool? : Value → Option Bool
  | bool value => some value
  | int _ => none

end Value

/-- Variables of nested scopes, innermost first. -/
abbrev Variables := List (List (String × Value))

namespace Variables

/-- The value of the innermost variable of this name. -/
def lookup? (vars : Variables) (name : String) : Option Value :=
  vars.findSome? (·.lookup name)

/-- A new variable in the innermost scope, in place of one of the same name. -/
def declare (name : String) (value : Value) : Variables → Variables
  | [] => [[(name, value)]]
  | scope :: outer => ((name, value) :: scope.filter (·.1 != name)) :: outer

/-- Change the value of a variable of one scope. -/
def update (name : String) (value : Value) : List (String × Value) → List (String × Value)
  | [] => []
  | entry :: rest =>
    if entry.1 = name then (name, value) :: rest else entry :: update name value rest

/-- Assign to the innermost variable of this name. -/
def assign? (name : String) (value : Value) : Variables → Option Variables
  | [] => none
  | scope :: outer =>
    if (scope.lookup name).isSome then some (update name value scope :: outer)
    else (assign? name value outer).map (scope :: ·)

end Variables

/-- The meaning of an operator on ints. Division is left out, since it can fail. -/
def ArithOp.onInts? : ArithOp → Option (Int32 → Int32 → Int32)
  | add => some fun left right => left + right
  | sub => some fun left right => left - right
  | mul => some fun left right => left * right
  | and => some fun left right => left &&& right
  | or => some fun left right => left ||| right
  | xor => some fun left right => left ^^^ right
  | shl => some fun left right => left <<< right
  | shr => some fun left right => left >>> right
  | ushr => some fun left right => (left.toUInt32 >>> right.toUInt32).toInt32
  | div | rem => none

def CompareOp.holds : CompareOp → Int32 → Int32 → Bool
  | eq, left, right => left == right
  | ne, left, right => left != right
  | lt, left, right => left < right
  | le, left, right => left ≤ right
  | gt, left, right => right < left
  | ge, left, right => right ≤ left

/-- The value of an expression, if it has one. Booleans are ordered with `false`
first. -/
def Tree.eval? (vars : Variables) : Tree → Option Value
  | .literal (.int value) => some (.int value)
  | .literal (.bool value) => some (.bool value)
  | .readLocal name _ => vars.lookup? name
  | .arith op _ left right => do
    let f ← op.onInts?
    let left ← (eval? vars left).bind Value.int?
    let right ← (eval? vars right).bind Value.int?
    return .int (f left right)
  | .compare op left right => do
    let left ← eval? vars left
    let right ← eval? vars right
    if left.ty = right.ty then some (.bool (op.holds left.cell right.cell)) else none
  | .logical op left right => do
    let left ← (eval? vars left).bind Value.bool?
    if left = (op == .or) then some (.bool left)
    else
      let right ← (eval? vars right).bind Value.bool?
      return .bool right
  | .not operand => do
    let operand ← (eval? vars operand).bind Value.bool?
    return .bool !operand
  | _ => none

/-- A write to a static field. -/
structure Write where
  owner : Ty
  name : String
  value : Value
deriving DecidableEq

structure Store where
  vars : Variables
  /-- Writes to static fields so far, in order. -/
  writes : List Write
deriving DecidableEq

/-- How the execution of a statement ends. -/
inductive Completion where
  | normal
  | broke (label : Option String)
  | continued (label : Option String)
  | returned (value : Option Value)
  /-- The fuel ran out. -/
  | unfinished
  /-- A part of the statement has no meaning. -/
  | stuck
deriving DecidableEq

abbrev Execution := Completion × Store

namespace Execution

/-- Go on if the execution ended normally. -/
def andThen (execution : Execution) (next : Store → Execution) : Execution :=
  match execution with
  | (.normal, store) => next store
  | other => other

/-- A transfer to this label, or to none, ends at a loop with the label. -/
def reaches (loop : Option String) (label : Option String) : Bool :=
  label.isNone || loop == label

/-- Go on after the body of a loop has been executed. -/
def afterBody (loop : Option String) (execution : Execution) (next : Store → Execution) :
    Execution :=
  match execution with
  | (.normal, store) => next store
  | (.broke label, store) =>
    if reaches loop label then (.normal, store) else (.broke label, store)
  | (.continued label, store) =>
    if reaches loop label then next store else (.continued label, store)
  | other => other

end Execution

namespace Store

def eval? (store : Store) (tree : Tree) : Option Value := tree.eval? store.vars

/-- The value of a condition. -/
def test? (store : Store) (condition : Tree) : Option Bool :=
  (store.eval? condition).bind Value.bool?

/-- Go on with the value of an expression. -/
def withValue (store : Store) (tree : Tree) (next : Value → Execution) : Execution :=
  match store.eval? tree with
  | some value => next value
  | none => (.stuck, store)

def declare (store : Store) (name : String) (value : Value) : Execution :=
  (.normal, { store with vars := store.vars.declare name value })

def assign (store : Store) (name : String) (value : Value) : Execution :=
  match store.vars.assign? name value with
  | some vars => (.normal, { store with vars := vars })
  | none => (.stuck, store)

def write (store : Store) (owner : Ty) (name : String) (value : Value) : Execution :=
  (.normal, { store with writes := store.writes ++ [⟨owner, name, value⟩] })

/-- Execute in a scope of its own. -/
def inScope (action : Store → Execution) (store : Store) : Execution :=
  let (completion, after) := action { store with vars := [] :: store.vars }
  (completion, { after with vars := after.vars.tail })

/-- Rounds of a loop. -/
def rounds (label : Option String) (test : Store → Option Bool)
    (body update : Nat → Store → Execution) : Nat → Store → Execution
  | 0, store => (.unfinished, store)
  | fuel + 1, store =>
    match test store with
    | some true =>
      Execution.afterBody label (body fuel store) fun store =>
        Execution.andThen (update fuel store) (rounds label test body update fuel)
    | some false => (.normal, store)
    | none => (.stuck, store)

end Store

namespace Tree

mutual

/-- Execute a statement. -/
def exec : Tree → Nat → Store → Execution
  | .nothing, _, store => (.normal, store)
  | .block trees, fuel, store => execAll trees fuel store
  | .declareLocal name _ (some value), _, store =>
    store.withValue value fun value => store.declare name value
  | .assignLocal name _ value, _, store =>
    store.withValue value fun value => store.assign name value
  | .writeField owner name _ none value, _, store =>
    store.withValue value fun value => store.write owner name value
  | .branch condition body otherwise, fuel, store =>
    match store.test? condition with
    | some true => store.inScope (exec body fuel)
    | some false => execOptional otherwise fuel store
    | none => (.stuck, store)
  | .whileLoop label condition body bodyFirst, fuel, store =>
    let round := fun fuel => Store.inScope (exec body fuel)
    let rounds := Store.rounds label (·.test? condition) round fun _ store => (.normal, store)
    if bodyFirst then Execution.afterBody label (round fuel store) (rounds fuel)
    else rounds fuel store
  | .forLoop label init condition update body, fuel, store =>
    store.inScope fun store => Execution.andThen (execAll init fuel store)
      (Store.rounds label (fun store => condition.elim (some true) store.test?)
        (fun fuel => Store.inScope (exec body fuel)) (execAll update) fuel)
  | .ret none, _, store => (.returned none, store)
  | .ret (some value), _, store => store.withValue value fun value => (.returned value, store)
  | .breakTo label, _, store => (.broke label, store)
  | .continueTo label, _, store => (.continued label, store)
  | expression, _, store => store.withValue expression fun _ => (.normal, store)

def execAll : List Tree → Nat → Store → Execution
  | [], _, store => (.normal, store)
  | tree :: rest, fuel, store => Execution.andThen (exec tree fuel store) (execAll rest fuel)

/-- Execute a statement in a scope of its own, if there is one. -/
def execOptional : Option Tree → Nat → Store → Execution
  | none, _, store => (.normal, store)
  | some tree, fuel, store => store.inScope (exec tree fuel)

end

/-- Expressions over ints and booleans, with their types. -/
inductive HasType : Tree → Ty → Prop
  | int (value : Int32) : HasType (.literal (.int value)) Ty.int
  | bool (value : Bool) : HasType (.literal (.bool value)) Ty.bool
  | readLocal {name : String} {ty : Ty} (hty : ty = Ty.int ∨ ty = Ty.bool) :
      HasType (.readLocal name ty) ty
  | arith {op : ArithOp} {left right : Tree} (hop : op ≠ .div ∧ op ≠ .rem)
      (hleft : HasType left Ty.int) (hright : HasType right Ty.int) :
      HasType (.arith op Ty.int left right) Ty.int
  | compare {op : CompareOp} {left right : Tree} {ty : Ty} (hleft : HasType left ty)
      (hright : HasType right ty) : HasType (.compare op left right) Ty.bool
  | logical {op : LogicalOp} {left right : Tree} (hleft : HasType left Ty.bool)
      (hright : HasType right Ty.bool) : HasType (.logical op left right) Ty.bool
  | not {operand : Tree} (hoperand : HasType operand Ty.bool) : HasType (.not operand) Ty.bool

/-- The statement cannot be left by a transfer. -/
def isUpdate : Tree → Bool
  | .assignLocal .. | .writeField .. => true
  | _ => false

/-- Structured statements of a routine with this result. -/
inductive Structured (result : Ty) : Tree → Prop
  | expression {tree : Tree} {ty : Ty} (h : tree.HasType ty) : Structured result tree
  | nothing : Structured result .nothing
  | block {trees : List Tree} (h : ∀ tree ∈ trees, Structured result tree) :
      Structured result (.block trees)
  | declareLocal {name : String} {ty : Ty} {value : Tree} (h : value.HasType ty) :
      Structured result (.declareLocal name ty (some value))
  | assignLocal {name : String} {ty : Ty} {value : Tree} (h : value.HasType ty) :
      Structured result (.assignLocal name ty value)
  | writeField {owner ty : Ty} {name : String} {value : Tree} (h : value.HasType ty) :
      Structured result (.writeField owner name ty none value)
  | branch {condition body : Tree} {otherwise : Option Tree}
      (hcondition : condition.HasType Ty.bool) (hbody : Structured result body)
      (hotherwise : ∀ tree ∈ otherwise, Structured result tree) :
      Structured result (.branch condition body otherwise)
  | whileLoop {label : Option String} {condition body : Tree} {bodyFirst : Bool}
      (hcondition : condition.HasType Ty.bool) (hbody : Structured result body) :
      Structured result (.whileLoop label condition body bodyFirst)
  | forLoop {label : Option String} {init update : List Tree} {condition : Option Tree}
      {body : Tree} (hinit : ∀ tree ∈ init, Structured result tree)
      (hcondition : ∀ tree ∈ condition, tree.HasType Ty.bool)
      (hupdate : ∀ tree ∈ update, Structured result tree)
      (hplain : ∀ tree ∈ update, tree.isUpdate = true)
      (hbody : Structured result body) :
      Structured result (.forLoop label init condition update body)
  | breakTo {label : Option String} : Structured result (.breakTo label)
  | continueTo {label : Option String} : Structured result (.continueTo label)
  | returnVoid (hresult : result = Ty.void) : Structured result (.ret none)
  | returnValue {value : Tree} (h : value.HasType result) : Structured result (.ret (some value))

theorem HasType.eq_int_or_bool {tree : Tree} {ty : Ty} (h : tree.HasType ty) :
    ty = Ty.int ∨ ty = Ty.bool := by
  cases h with
  | int | arith => exact .inl rfl
  | bool | compare | logical | not => exact .inr rfl
  | readLocal hty => exact hty

end Tree

/-- The outcome of a routine whose body ends like this. -/
def Completion.outcome? (result : Ty) : Completion → Option Outcome
  | .normal => some (if result.isVoid then .returned none else .ended)
  | .returned value => some (.returned (value.map Value.cell))
  | _ => none

/-- The variables of a routine that is called. -/
def RoutineDecl.arguments (decl : RoutineDecl) (args : List Value) : Variables :=
  (decl.params.zip args).foldl (fun vars arg => vars.declare arg.1.name arg.2) [[]]

/-- Execute the body of a routine. -/
def RoutineDecl.evaluate (decl : RoutineDecl) (args : List Value) (fuel : Nat) : Execution :=
  decl.body.exec fuel ⟨decl.arguments args, []⟩

end StackLowering
