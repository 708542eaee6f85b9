import StackLowering.Digest
/-!
Type references of the target machine: primitives, named object types, arrays,
and symbolic types that stand for a type of the declaration being lowered.
Values occupy cells, two for `long` and `double`.
-/

namespace StackLowering

inductive Prim where
  | void
  | bool
  | byte
  | char
  | short
  | int
  | long
  | float
  | double
deriving DecidableEq, Repr

namespace Prim

/-- Cells a value occupies. -/
def width : Prim → Nat
  | void => 0
  | long | double => 2
  | _ => 1

def name : Prim → String
  | void => "void"
  | bool => "boolean"
  | byte => "byte"
  | char => "char"
  | short => "short"
  | int => "int"
  | long => "long"
  | float => "float"
  | double => "double"

def descriptor : Prim → Char
  | void => 'V'
  | bool => 'Z'
  | byte => 'B'
  | char => 'C'
  | short => 'S'
  | int => 'I'
  | long => 'J'
  | float => 'F'
  | double => 'D'

/-- Computed on the machine as a 32-bit integer. -/
def isIntLike : Prim → Bool
  | bool | byte | char | short | int => true
  | _ => false

/-- Usable as a 32-bit dispatch key. -/
def isSwitchable : Prim → Bool
  | byte | char | short | int => true
  | _ => false

def all : List Prim :=
  [void, bool, byte, char, short, int, long, float, double]

/-- Name of the object type that boxes a value of this primitive. -/
def boxName? : Prim → Option String
  | void => none
  | bool => some "lang.Boolean"
  | byte => some "lang.Byte"
  | char => some "lang.Character"
  | short => some "lang.Short"
  | int => some "lang.Integer"
  | long => some "lang.Long"
  | float => some "lang.Float"
  | double => some "lang.Double"

end Prim

/-- A type named by its role for the type being lowered. -/
inductive Role where
  | self
  | parent
  | interface (index : Nat)
deriving DecidableEq, Repr

def Role.display : Role → String
  | self => "this"
  | parent => "super"
  | interface index => "interface#" ++ toString index

inductive Ty where
  | prim (p : Prim)
  | object (name : String)
  | array (element : Ty)
  | symbolic (role : Role)
deriving DecidableEq, Repr

namespace Ty

def void : Ty := prim .void
def bool : Ty := prim .bool
def byte : Ty := prim .byte
def char : Ty := prim .char
def short : Ty := prim .short
def int : Ty := prim .int
def long : Ty := prim .long
def float : Ty := prim .float
def double : Ty := prim .double

/-- The type every object type widens to. -/
def root : Ty := object "lang.Object"
def text : Ty := object "lang.String"
def classObject : Ty := object "lang.Class"
def enumRoot : Ty := object "lang.Enum"
def throwable : Ty := object "lang.Throwable"
def iterable : Ty := object "lang.Iterable"
def iterator : Ty := object "lang.Iterator"

def width : Ty → Nat
  | prim p => p.width
  | _ => 1

def isVoid : Ty → Bool
  | prim .void => true
  | _ => false

def prim? : Ty → Option Prim
  | prim p => some p
  | _ => none

def isReference : Ty → Bool
  | prim _ => false
  | _ => true

def objectName? : Ty → Option String
  | object name => some name
  | _ => none

def element? : Ty → Option Ty
  | array element => some element
  | _ => none

def display : Ty → String
  | prim p => p.name
  | object name => name
  | array element => element.display ++ "[]"
  | symbolic role => "<" ++ role.display ++ ">"

/-- The part of the displayed name after the last dot. -/
def simpleName (ty : Ty) : String :=
  String.ofList (ty.display.toList.reverse.takeWhile (· != '.')).reverse

def descriptorChars : Ty → List Char
  | prim p => [p.descriptor]
  | object name => 'L' :: (name.toList.map fun c => if c = '.' then '/' else c) ++ [';']
  | array element => '[' :: element.descriptorChars
  | symbolic role => 'L' :: '$' :: role.display.toList ++ [';']

/-- Binary descriptor: a letter for a primitive, `L…;` for an object type with
slashes for dots, and `[` in front of an element type. -/
def descriptor (ty : Ty) : String :=
  String.ofList ty.descriptorChars

def boxed? (p : Prim) : Option Ty :=
  p.boxName?.map object

/-- The primitive that a box type holds. -/
def unboxed? (ty : Ty) : Option Prim :=
  ty.objectName?.bind fun name => Prim.all.find? fun p => p.boxName? == some name

def digest (ty : Ty) : Digest :=
  Digest.ofName ty.display

end Ty

/-- Name, result and parameter types of a method. -/
structure Signature where
  name : String
  result : Ty
  params : List Ty
deriving DecidableEq, Repr

namespace Signature

/-- The name under which constructors are invoked. -/
def constructorName : String := "<init>"

def descriptorChars (signature : Signature) : List Char :=
  '(' :: signature.params.flatMap Ty.descriptorChars ++ ')' :: signature.result.descriptorChars

def descriptor (signature : Signature) : String :=
  String.ofList signature.descriptorChars

/-- Digest of the method with this signature on `owner`. -/
def digest (signature : Signature) (owner : Ty) : Digest :=
  Digest.ofMethod owner.digest signature.name (signature.params.map Ty.digest)

end Signature

end StackLowering
