import StackLowering.Ty
/-!
Scoped storage under typed keys. Values of several types share one store; a
key reads back only values of its own type, and a value of another type under
the same name counts as absent.
-/

namespace StackLowering

/-- The routine being lowered. -/
structure RoutineInfo where
  owner : Ty
  name : String
  result : Ty
  isStatic : Bool
deriving DecidableEq, Repr

inductive Datum where
  | int (value : Int)
  | text (value : String)
  | ty (value : Ty)
  | routine (value : RoutineInfo)
deriving DecidableEq, Repr

/-- Types whose values can be stored. -/
class Storable (α : Type) where
  toDatum : α → Datum
  ofDatum? : Datum → Option α

instance : Storable Int where
  toDatum := .int
  ofDatum?
    | .int value => some value
    | _ => none

instance : Storable String where
  toDatum := .text
  ofDatum?
    | .text value => some value
    | _ => none

instance : Storable Ty where
  toDatum := .ty
  ofDatum?
    | .ty value => some value
    | _ => none

instance : Storable RoutineInfo where
  toDatum := .routine
  ofDatum?
    | .routine value => some value
    | _ => none

/-- A key for values of type `α`. -/
structure Key (α : Type) where
  name : String

def Key.display {α : Type} (key : Key α) : String := "Key(" ++ key.name ++ ")"

/-- A scope: what is stored under each name. -/
abbrev Scope := List (String × Datum)

namespace Scope

def get? (scope : Scope) (name : String) : Option Datum := scope.lookup name

def erase (scope : Scope) (name : String) : Scope := scope.filter (·.1 != name)

def set (scope : Scope) (name : String) (datum : Datum) : Scope :=
  (name, datum) :: scope.erase name

end Scope

/-- Nested scopes around a root scope, which always stays. -/
structure Scopes where
  /-- Scopes inside the root, innermost first. -/
  inner : List Scope
  root : Scope
deriving DecidableEq

namespace Scopes

variable {α : Type} [Storable α]

def empty : Scopes := ⟨[], []⟩

/-- All scopes, innermost first. -/
def all (scopes : Scopes) : List Scope := scopes.inner ++ [scopes.root]

def depth (scopes : Scopes) : Nat := scopes.inner.length

def push (scopes : Scopes) : Scopes := { scopes with inner := [] :: scopes.inner }

def pop (scopes : Scopes) : Scopes := { scopes with inner := scopes.inner.tail }

/-- The nearest value under the key's name, if it has the key's type. -/
def get? (scopes : Scopes) (key : Key α) : Option α :=
  (scopes.all.findSome? (·.get? key.name)).bind Storable.ofDatum?

/-- All values of the key's type under its name, innermost first. -/
def getAll (scopes : Scopes) (key : Key α) : List α :=
  scopes.all.filterMap fun scope => (scope.get? key.name).bind Storable.ofDatum?

/-- Change the scope at `depth`, where the root has depth 0. -/
def modifyAt (scopes : Scopes) (depth : Nat) (f : Scope → Scope) : Scopes :=
  if depth = 0 then { scopes with root := f scopes.root }
  else { scopes with inner := scopes.inner.modify (scopes.depth - depth) f }

/-- Store a value in the scope at `depth`, if there is one. -/
def setIn? (scopes : Scopes) (depth : Nat) (key : Key α) (value : α) : Option Scopes :=
  if depth ≤ scopes.depth then
    some (scopes.modifyAt depth (·.set key.name (Storable.toDatum value)))
  else none

/-- Store a value in the innermost scope. -/
def set (scopes : Scopes) (key : Key α) (value : α) : Scopes :=
  scopes.modifyAt scopes.depth (·.set key.name (Storable.toDatum value))

def setRoot (scopes : Scopes) (key : Key α) (value : α) : Scopes :=
  scopes.modifyAt 0 (·.set key.name (Storable.toDatum value))

/-- Drop what the innermost scope has under the key's name, and return it if it
has the key's type. -/
def remove (scopes : Scopes) (key : Key α) : Option α × Scopes :=
  let innermost := scopes.inner.head?.getD scopes.root
  ((innermost.get? key.name).bind Storable.ofDatum?,
    scopes.modifyAt scopes.depth (·.erase key.name))

end Scopes

end StackLowering
