import StackLowering.Literal
import StackLowering.Modifiers
/-!
The structured trees that are lowered. A tree says nothing about whether the
value it produces is consumed; that is decided by the position it is lowered
in. Arms of a switch, catch clauses and methods are written over an arbitrary
type of trees, so that `Tree` itself can contain them.
-/

namespace StackLowering

inductive ArithOp where
  | add
  | sub
  | mul
  | div
  | rem
  | and
  | or
  | xor
  | shl
  | shr
  | ushr
deriving DecidableEq, Repr

namespace ArithOp

def all : List ArithOp := [add, sub, mul, div, rem, and, or, xor, shl, shr, ushr]

def name : ArithOp → String
  | add => "Add"
  | sub => "Sub"
  | mul => "Mul"
  | div => "Div"
  | rem => "Rem"
  | and => "And"
  | or => "Or"
  | xor => "Xor"
  | shl => "Shl"
  | shr => "Shr"
  | ushr => "Ushr"

def isCommutative : ArithOp → Bool
  | add | mul | and | or | xor => true
  | _ => false

end ArithOp

inductive CompareOp where
  | eq
  | ne
  | lt
  | le
  | gt
  | ge
deriving DecidableEq, Repr

namespace CompareOp

def all : List CompareOp := [eq, ne, lt, le, gt, ge]

def name : CompareOp → String
  | eq => "Eq"
  | ne => "Ne"
  | lt => "Lt"
  | le => "Le"
  | gt => "Gt"
  | ge => "Ge"

end CompareOp

inductive LogicalOp where
  | and
  | or
deriving DecidableEq, Repr

namespace LogicalOp

def all : List LogicalOp := [and, or]

def name : LogicalOp → String
  | and => "And"
  | or => "Or"

end LogicalOp

inductive InvokeKind where
  | static
  /-- Through the class of the receiver. -/
  | virtual
  /-- Through an interface of the receiver. -/
  | interface
  /-- Exactly the named method: constructors, private and inherited ones. -/
  | special
deriving DecidableEq, Repr

namespace InvokeKind

def all : List InvokeKind := [static, virtual, interface, special]

def name : InvokeKind → String
  | static => "Static"
  | virtual => "Virtual"
  | interface => "Interface"
  | special => "Special"

end InvokeKind

inductive Iteration where
  /-- Over an array by index. -/
  | indexed
  /-- Over anything iterable, through its iterator. -/
  | iterator
deriving DecidableEq, Repr

namespace Iteration

def all : List Iteration := [indexed, iterator]

def name : Iteration → String
  | indexed => "Indexed"
  | iterator => "Iterator"

end Iteration

inductive SwitchKind where
  | int
  | enum
  | text
  | object
deriving DecidableEq, Repr

namespace SwitchKind

def all : List SwitchKind := [int, enum, text, object]

def name : SwitchKind → String
  | int => "Int"
  | enum => "Enum"
  | text => "Text"
  | object => "Object"

end SwitchKind

/-- One arm of a switch. An arm without a value is the default. -/
structure ArmOf (T : Type) where
  value : Option T
  body : T

/-- A clause that binds a caught exception of type `ty` to `binder`. -/
structure CatchOf (T : Type) where
  ty : Ty
  binder : String
  body : T

structure Param where
  name : String
  ty : Ty
deriving DecidableEq, Repr

/-- A method declaration. Abstract and external methods have no body. -/
structure MethodOf (T : Type) where
  name : String
  modifiers : Modifiers
  result : Ty
  params : List Param
  body : Option T

inductive Tree where
  | literal (value : Literal)
  /-- The receiver of the routine. -/
  | self
  /-- Duplicate the value on top of the stack. -/
  | dup (ty : Ty)
  | nothing
  /-- A sequence that opens no scope. -/
  | block (trees : List Tree)
  | readLocal (name : String) (ty : Ty)
  | declareLocal (name : String) (ty : Ty) (value : Option Tree)
  | assignLocal (name : String) (ty : Ty) (value : Tree)
  /-- A field without a receiver is static. -/
  | readField (owner : Ty) (name : String) (ty : Ty) (receiver : Option Tree)
  | writeField (owner : Ty) (name : String) (ty : Ty) (receiver : Option Tree) (value : Tree)
  | invoke (kind : InvokeKind) (owner : Ty) (method : Signature) (receiver : Option Tree)
      (args : List Tree)
  | create (ty : Ty) (params : List Ty) (args : List Tree)
  | enumConstant (ty : Ty) (name : String)
  | arith (op : ArithOp) (ty : Ty) (left right : Tree)
  | compare (op : CompareOp) (left right : Tree)
  | logical (op : LogicalOp) (left right : Tree)
  | not (operand : Tree)
  | cast (target : Ty) (value : Tree)
  | instanceOf (ty : Ty) (value : Tree)
  | arrayLength (array : Tree)
  /-- An element read, consumed as a `ty`. -/
  | arrayLoad (array index : Tree) (ty : Ty)
  | arrayStore (array index value : Tree)
  | newArray (element : Ty) (length : Tree)
  | branch (condition body : Tree) (otherwise : Option Tree)
  | forLoop (label : Option String) (init : List Tree) (condition : Option Tree)
      (update : List Tree) (body : Tree)
  | whileLoop (label : Option String) (condition body : Tree) (bodyFirst : Bool)
  | forEach (label : Option String) (binder : String) (ty : Ty) (iteration : Iteration)
      (source body : Tree)
  | switch (label : Option String) (kind : SwitchKind) (subject : Tree) (arms : List (ArmOf Tree))
  | synchronized (lock body : Tree)
  | guarded (body : Tree) (catches : List (CatchOf Tree)) (cleanup : Option Tree)
  | raise (value : Tree)
  | ret (value : Option Tree)
  | breakTo (label : Option String)
  | continueTo (label : Option String)
  | monitorEnter (value : Tree)
  | monitorExit (value : Tree)
  /-- Continue at the default arm of the enclosing switch. -/
  | redirect
  /-- A routine of the enclosing type, declared in place and emitting nothing there. -/
  | localRoutine (decl : MethodOf Tree)

abbrev Arm := ArmOf Tree
abbrev Catch := CatchOf Tree
abbrev Method := MethodOf Tree

namespace Arm

def new (value body : Tree) : Arm := ⟨some value, body⟩

def otherwise (body : Tree) : Arm := ⟨none, body⟩

end Arm

def ArmOf.isDefault {T : Type} (arm : ArmOf T) : Bool := arm.value.isNone

namespace MethodOf

variable {T : Type}

def paramTypes (method : MethodOf T) : List Ty := method.params.map Param.ty

def signature (method : MethodOf T) : Signature :=
  ⟨method.name, method.result, method.paramTypes⟩

end MethodOf

namespace Tree

def int (value : Int32) : Tree := literal (.int value)
def bool (value : Bool) : Tree := literal (.bool value)
def null : Tree := literal .null

/-- Tag of a tree, by which handlers are chosen. -/
inductive Kind where
  | literal
  | self
  | dup
  | nothing
  | block
  | readLocal
  | declareLocal
  | assignLocal
  | readField
  | writeField
  | invoke
  | create
  | enumConstant
  | arith
  | compare
  | logical
  | not
  | cast
  | instanceOf
  | arrayLength
  | arrayLoad
  | arrayStore
  | newArray
  | branch
  | forLoop
  | whileLoop
  | forEach
  | switch
  | synchronized
  | guarded
  | raise
  | ret
  | breakTo
  | continueTo
  | monitorEnter
  | monitorExit
  | redirect
  | localRoutine
deriving DecidableEq, Repr

namespace Kind

/-- All kinds, in the order they are listed to users. -/
def all : List Kind :=
  [literal, self, dup, nothing, block, readLocal, declareLocal, assignLocal, readField, writeField,
   invoke, create, enumConstant, arith, compare, logical, not, cast, instanceOf, arrayLength,
   arrayLoad, arrayStore, newArray, branch, forLoop, whileLoop, forEach, switch, synchronized,
   guarded, raise, ret, breakTo, continueTo, monitorEnter, monitorExit, redirect, localRoutine]

def name : Kind → String
  | literal => "Literal"
  | self => "This"
  | dup => "Dup"
  | nothing => "Nothing"
  | block => "Instructions"
  | readLocal => "VariableAccess"
  | declareLocal => "VariableDeclaration"
  | assignLocal => "VariableDefinition"
  | readField => "FieldAccess"
  | writeField => "FieldDefinition"
  | invoke => "Invocation"
  | create => "New"
  | enumConstant => "EnumConstant"
  | arith => "Operate"
  | compare => "Check"
  | logical => "Logical"
  | not => "Not"
  | cast => "Cast"
  | instanceOf => "InstanceOf"
  | arrayLength => "ArrayLength"
  | arrayLoad => "ArrayLoad"
  | arrayStore => "ArrayStore"
  | newArray => "NewArray"
  | branch => "If"
  | forLoop => "For"
  | whileLoop => "While"
  | forEach => "ForEach"
  | switch => "Switch"
  | synchronized => "Synchronized"
  | guarded => "Try"
  | raise => "Throw"
  | ret => "Return"
  | breakTo => "Break"
  | continueTo => "Continue"
  | monitorEnter => "MonitorEnter"
  | monitorExit => "MonitorExit"
  | redirect => "RedirectToEnclosingDefault"
  | localRoutine => "LocalRoutine"

end Kind

def kind : Tree → Kind
  | literal _ => .literal
  | self => .self
  | dup _ => .dup
  | nothing => .nothing
  | block _ => .block
  | readLocal .. => .readLocal
  | declareLocal .. => .declareLocal
  | assignLocal .. => .assignLocal
  | readField .. => .readField
  | writeField .. => .writeField
  | invoke .. => .invoke
  | create .. => .create
  | enumConstant .. => .enumConstant
  | arith .. => .arith
  | compare .. => .compare
  | logical .. => .logical
  | not _ => .not
  | cast .. => .cast
  | instanceOf .. => .instanceOf
  | arrayLength _ => .arrayLength
  | arrayLoad .. => .arrayLoad
  | arrayStore .. => .arrayStore
  | newArray .. => .newArray
  | branch .. => .branch
  | forLoop .. => .forLoop
  | whileLoop .. => .whileLoop
  | forEach .. => .forEach
  | switch .. => .switch
  | synchronized .. => .synchronized
  | guarded .. => .guarded
  | raise _ => .raise
  | ret _ => .ret
  | breakTo _ => .breakTo
  | continueTo _ => .continueTo
  | monitorEnter _ => .monitorEnter
  | monitorExit _ => .monitorExit
  | redirect => .redirect
  | localRoutine _ => .localRoutine

/-- Type of the value a tree leaves on the stack, `void` for statements. -/
def valueType : Tree → Ty
  | literal value => value.valueType
  | self => .symbolic .self
  | dup ty | readLocal _ ty | readField _ _ ty _ | create ty _ _ | enumConstant ty _ => ty
  | arith _ ty _ _ | arrayLoad _ _ ty => ty
  | invoke _ _ method _ _ => method.result
  | compare .. | logical .. | not _ | instanceOf .. => Ty.bool
  | cast target _ => target
  | arrayLength _ => Ty.int
  | newArray element _ => .array element
  | _ => Ty.void

end Tree

end StackLowering
