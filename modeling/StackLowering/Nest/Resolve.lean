import StackLowering.Fault
import StackLowering.Nest
/-!
Symbolic types are resolved against the type whose code is being lowered.
-/

namespace StackLowering.Nest

/-- The type that plays `role` for `current`. -/
def resolveRole (nest : Nest) (current : Ty) (role : Role) : Except Fault Ty :=
  let found := match role with
    | .self => some current
    | .parent => (nest.get? current).bind TypeDecl.superclass
    | .interface index => (nest.get? current).bind (·.interfaces[index]?)
  match found with
  | some ty => .ok ty
  | none => .error (.unresolvableRole role current)

/-- Resolve a type, looking through arrays. -/
def resolve (nest : Nest) (current : Ty) : Ty → Except Fault Ty
  | .symbolic role => nest.resolveRole current role
  | .array element => (nest.resolve current element).map .array
  | ty => .ok ty

def resolveAll (nest : Nest) (current : Ty) (types : List Ty) : Except Fault (List Ty) :=
  types.mapM (nest.resolve current)

/-- Resolve the result and then the parameters of a signature. -/
def resolveSignature (nest : Nest) (current : Ty) (signature : Signature) :
    Except Fault Signature := do
  let result ← nest.resolve current signature.result
  let params ← nest.resolveAll current signature.params
  return ⟨signature.name, result, params⟩

end StackLowering.Nest
