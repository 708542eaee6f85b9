import StackLowering.Decl
/-!
A nest is a top-level type together with all types nested in it. Its members
may use each other's private members. Types outside the nest can be declared
too; they are consulted for what they are, and never lowered.
-/

namespace StackLowering

/-- Why a declaration is not accepted into a nest. -/
inductive NestFault where
  | duplicateType (name : String)
  | notAnObjectType (ty : Ty)
  | outerNotInNest (name outer : String)
deriving DecidableEq, Repr

namespace NestFault

/-- Short name that tools tell faults apart by. -/
def code : NestFault → String
  | duplicateType _ => "DuplicateType"
  | notAnObjectType _ => "NotAnObjectType"
  | outerNotInNest .. => "OuterNotInNest"

def message : NestFault → String
  | duplicateType name => "type '" ++ name ++ "' is already registered"
  | notAnObjectType ty => "declaration type " ++ ty.display ++ " is not a named object type"
  | outerNotInNest name outer =>
    "type '" ++ name ++ "' is nested in '" ++ outer ++ "', which is not part of this nest"

end NestFault

structure Nest where
  /-- Members in the order they were added. -/
  members : List TypeDecl
  externals : List TypeDecl

namespace Nest

/-- Library types that lowered code refers to by itself. -/
def libraryTypes : List TypeDecl :=
  let plainClass := fun ty => TypeDecl.bare ty .classType .publicFlag
  let sealedClass := fun ty => TypeDecl.bare ty .classType (.publicFlag ||| .finalFlag)
  let interface := fun ty => TypeDecl.bare ty .interfaceType .publicFlag
  [plainClass Ty.root, sealedClass Ty.text, sealedClass Ty.classObject,
   TypeDecl.bare Ty.enumRoot .classType (.publicFlag ||| .abstractFlag),
   plainClass Ty.throwable, interface Ty.iterable, interface Ty.iterator] ++
  (Prim.all.filterMap Ty.boxed?).map sealedClass

/-- The nest without members; only the library types are known. -/
def empty : Nest := ⟨[], libraryTypes⟩

def findNamed (decls : List TypeDecl) (name : String) : Option TypeDecl :=
  decls.find? (·.name == name)

def hasMember (nest : Nest) (name : String) : Bool :=
  (findNamed nest.members name).isSome

/-- Add a member. The type it is nested in has to be a member already. -/
def addType (nest : Nest) (decl : TypeDecl) : Except NestFault Nest :=
  match decl.ty.objectName? with
  | none => .error (.notAnObjectType decl.ty)
  | some name =>
    if nest.hasMember name then .error (.duplicateType name)
    else match decl.outer.bind Ty.objectName? with
      | some outer =>
        if nest.hasMember outer then .ok { nest with members := nest.members ++ [decl] }
        else .error (.outerNotInNest name outer)
      | none => .ok { nest with members := nest.members ++ [decl] }

/-- Declare a type outside the nest, in place of any earlier one of that name. -/
def addExternal (nest : Nest) (decl : TypeDecl) : Except NestFault Nest :=
  match decl.ty.objectName? with
  | none => .error (.notAnObjectType decl.ty)
  | some name =>
    if nest.hasMember name then .error (.duplicateType name)
    else .ok { nest with externals := decl :: nest.externals.filter (·.name != name) }

def contains (nest : Nest) (ty : Ty) : Bool :=
  match ty.objectName? with
  | some name => nest.hasMember name
  | none => false

/-- The declaration of a member or of an external type. -/
def get? (nest : Nest) (ty : Ty) : Option TypeDecl :=
  ty.objectName?.bind fun name =>
    (findNamed nest.members name).or (findNamed nest.externals name)

def size (nest : Nest) : Nat := nest.members.length

def kindOf? (nest : Nest) (ty : Ty) : Option TypeKind :=
  (nest.get? ty).map TypeDecl.kind

def outer? (nest : Nest) (ty : Ty) : Option Ty :=
  (nest.get? ty).bind TypeDecl.outer

/-- The types around `ty`, going at most `steps` levels out. -/
def climb (nest : Nest) : Nat → Ty → List Ty
  | 0, _ => []
  | steps + 1, ty =>
    match nest.outer? ty with
    | some outer => outer :: nest.climb steps outer
    | none => []

/-- The types around `ty`, innermost first. A chain that does not repeat a
type has at most as many links as there are declarations. -/
def enclosing (nest : Nest) (ty : Ty) : List Ty :=
  nest.climb (nest.members.length + nest.externals.length) ty

/-- The top-level type around `ty`, or `ty` itself. -/
def outermost (nest : Nest) (ty : Ty) : Ty :=
  (nest.enclosing ty).getLast?.getD ty

def field? (nest : Nest) (owner : Ty) (name : String) : Option Field :=
  (nest.get? owner).bind (·.field? name)

/-- The method of exactly this name, result and parameter types. -/
def method? (nest : Nest) (owner : Ty) (signature : Signature) : Option Method :=
  (nest.get? owner).bind fun decl => decl.methods.find? fun m => m.signature == signature

def constructor? (nest : Nest) (owner : Ty) (params : List Ty) : Option Constructor :=
  (nest.get? owner).bind fun decl => decl.constructors.find? fun c => c.paramTypes == params

/-- Position of a constant in the enum type `ty`. -/
def ordinal? (nest : Nest) (ty : Ty) (constant : String) : Option Nat :=
  match nest.get? ty with
  | some decl => if decl.kind = .enumType then decl.ordinal? constant else none
  | none => none

/-- Number of fields, methods and constructors declared by members. -/
def memberCount (nest : Nest) : Nat :=
  nest.members.foldr (fun decl count => decl.memberCount + count) 0

end Nest

end StackLowering
