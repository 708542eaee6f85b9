import StackLowering.Tree
/-!
Declarations of types and their members.
-/

namespace StackLowering

inductive TypeKind where
  | classType
  | interfaceType
  | enumType
deriving DecidableEq, Repr

namespace TypeKind

def all : List TypeKind := [classType, interfaceType, enumType]

def name : TypeKind → String
  | classType => "Class"
  | interfaceType => "Interface"
  | enumType => "Enum"

end TypeKind

structure Field where
  name : String
  ty : Ty
  modifiers : Modifiers
deriving DecidableEq, Repr

structure Constructor where
  modifiers : Modifiers
  params : List Param
  body : Option Tree

def Constructor.paramTypes (constructor : Constructor) : List Ty :=
  constructor.params.map Param.ty

structure TypeDecl where
  ty : Ty
  kind : TypeKind
  modifiers : Modifiers
  /-- The type this one is directly nested in. -/
  outer : Option Ty
  superclass : Option Ty
  interfaces : List Ty
  fields : List Field
  methods : List Method
  constructors : List Constructor
  /-- Enum constants in the order of their ordinals. -/
  enumConstants : List String

namespace TypeDecl

/-- A declaration without members, nested in nothing. -/
def bare (ty : Ty) (kind : TypeKind) (modifiers : Modifiers) : TypeDecl where
  ty := ty
  kind := kind
  modifiers := modifiers
  outer := none
  superclass := none
  interfaces := []
  fields := []
  methods := []
  constructors := []
  enumConstants := []

def name (decl : TypeDecl) : String := decl.ty.objectName?.getD ""

def field? (decl : TypeDecl) (name : String) : Option Field :=
  decl.fields.find? (·.name == name)

def ordinal? (decl : TypeDecl) (constant : String) : Option Nat :=
  decl.enumConstants.findIdx? (· == constant)

/-- Number of members that can be declared private. -/
def memberCount (decl : TypeDecl) : Nat :=
  decl.fields.length + decl.methods.length + decl.constructors.length

end TypeDecl

/-- A routine ready to be lowered: a method or constructor with its body. -/
structure RoutineDecl where
  owner : Ty
  name : String
  params : List Param
  result : Ty
  isStatic : Bool
  body : Tree

namespace RoutineDecl

/-- The routine of a method that has a body. -/
def ofMethod? (owner : Ty) (method : Method) : Option RoutineDecl :=
  method.body.map fun body =>
    ⟨owner, method.name, method.params, method.result, method.modifiers.isStatic, body⟩

/-- The routine of a constructor that has a body. -/
def ofConstructor? (owner : Ty) (constructor : Constructor) : Option RoutineDecl :=
  constructor.body.map fun body =>
    ⟨owner, Signature.constructorName, constructor.params, Ty.void, false, body⟩

def descriptor (routine : RoutineDecl) : String :=
  Signature.descriptor ⟨routine.name, routine.result, routine.params.map Param.ty⟩

end RoutineDecl

end StackLowering
