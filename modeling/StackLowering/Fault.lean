import StackLowering.Decl
/-!
Why lowering a routine fails. A fault raised for a particular tree carries
that tree.
-/

namespace StackLowering

/-- The operands whose encoding has a limit. -/
inductive OperandKind where
  | constantIndex
  | argumentCount
  | localSlot
  | jumpOffset
deriving DecidableEq, Repr

def OperandKind.name : OperandKind → String
  | constantIndex => "constant index"
  | argumentCount => "argument count"
  | localSlot => "local slot"
  | jumpOffset => "jump offset"

inductive Fault where
  | unsupportedKind (kind : Tree.Kind) (tree : Tree)
  /-- A handler was given a tree of a kind it does not lower. -/
  | mismatchedTree (expected found : Tree.Kind)
  | undeclaredVariable (name : String) (ty : Ty) (tree : Option Tree)
  | unresolvableArmValue (tree : Tree)
  | nonNumericSubject (ty : Ty) (tree : Tree)
  /-- A key, or the range of a dense table, is out of bounds. -/
  | tableCapacityExceeded (low high : Int)
  | duplicateDefault (tree : Tree)
  | duplicateArmValue (key : Int32) (tree : Tree)
  | redirectOutsideSwitch
  | breakOutsideConstruct (label : Option String)
  | continueOutsideLoop (label : Option String)
  | unresolvableRole (role : Role) (context : Ty)
  | invalidInvocation (kind : InvokeKind) (owner : Ty) (name : String) (actual : TypeKind)
  | invalidOperand (operator : String) (ty : Ty)
  | unknownType (ty : Ty)
  | unknownMember (owner : Ty) (name : String)
  | unboundLabel (label : Nat)
  | operandOverflow (operand : OperandKind) (value : Nat)
  /-- Handlers keep handing trees back without an end. -/
  | unsettled (kind : Tree.Kind)

namespace Fault

/-- Short name that tools tell faults apart by. -/
def code : Fault → String
  | unsupportedKind .. => "UnsupportedNodeKind"
  | mismatchedTree .. => "MismatchedNode"
  | undeclaredVariable .. => "UndeclaredVariable"
  | unresolvableArmValue .. => "UnresolvableCaseValue"
  | nonNumericSubject .. => "NonNumericSwitchSubject"
  | tableCapacityExceeded .. => "TableCapacityExceeded"
  | duplicateDefault .. => "DuplicateDefaultCase"
  | duplicateArmValue .. => "DuplicateCaseValue"
  | redirectOutsideSwitch => "RedirectOutsideSwitch"
  | breakOutsideConstruct .. => "BreakOutsideConstruct"
  | continueOutsideLoop .. => "ContinueOutsideLoop"
  | unresolvableRole .. => "UnresolvableAlias"
  | invalidInvocation .. => "InvalidInvocationKind"
  | invalidOperand .. => "InvalidOperandType"
  | unknownType .. => "UnknownType"
  | unknownMember .. => "UnknownMember"
  | unboundLabel .. => "UnboundLabel"
  | operandOverflow .. => "OperandOverflow"
  | unsettled .. => "Unsettled"

def labelSuffix : Option String → String
  | some label => " (label '" ++ label ++ "')"
  | none => ""

def message : Fault → String
  | unsupportedKind kind _ => "no handler registered for " ++ kind.name ++ " nodes"
  | mismatchedTree expected found =>
    "expected a " ++ expected.name ++ " node, found " ++ found.name
  | undeclaredVariable name ty _ => "undeclared variable '" ++ name ++ "' of type " ++ ty.display
  | unresolvableArmValue _ => "case value cannot be reduced to a dispatch key"
  | nonNumericSubject ty _ => "switch subject of type " ++ ty.display ++ " is not numeric"
  | tableCapacityExceeded low high =>
    "switch range [" ++ toString low ++ ", " ++ toString high ++ "] exceeds the table capacity"
  | duplicateDefault _ => "switch declares more than one default case"
  | duplicateArmValue key _ =>
    "switch declares case key " ++ toString key.toInt ++ " more than once"
  | redirectOutsideSwitch => "default redirect used outside of a switch"
  | breakOutsideConstruct label => "break outside of a loop or switch" ++ labelSuffix label
  | continueOutsideLoop label => "continue outside of a loop" ++ labelSuffix label
  | unresolvableRole role context =>
    "alias " ++ role.display ++ " cannot be resolved in " ++ context.display
  | invalidInvocation kind owner name actual =>
    kind.name ++ " invocation of " ++ owner.display ++ "." ++ name ++ " targets a " ++ actual.name
  | invalidOperand operator ty =>
    "operator " ++ operator ++ " cannot be applied to " ++ ty.display
  | unknownType ty => "unknown type '" ++ ty.display ++ "'"
  | unknownMember owner name => "type " ++ owner.display ++ " has no member '" ++ name ++ "'"
  | unboundLabel label => "jump to label " ++ toString label ++ " which was never bound"
  | operandOverflow operand value =>
    operand.name ++ " value " ++ toString value ++ " does not fit its operand"
  | unsettled kind => "lowering of " ++ kind.name ++ " nodes does not settle"

/-- The tree a fault was raised for. -/
def tree? : Fault → Option Tree
  | unsupportedKind _ tree | unresolvableArmValue tree | nonNumericSubject _ tree => some tree
  | duplicateDefault tree | duplicateArmValue _ tree => some tree
  | undeclaredVariable _ _ tree => tree
  | _ => none

/-- Attach a tree to an undeclared variable that was reported without one. -/
def withTree (tree : Tree) : Fault → Fault
  | undeclaredVariable name ty none => undeclaredVariable name ty (some tree)
  | fault => fault

end Fault

end StackLowering
