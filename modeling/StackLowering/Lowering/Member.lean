import StackLowering.Lowering.Handler
/-!
Fields, enum constants, method calls and object creation. Accesses that need a
bridge are replaced by a use of it and lowered again.
-/

namespace StackLowering.Lowering

open Lower

def readField (recur : Recur) (owner : Ty) (name : String) (ty : Ty) (receiver : Option Tree) :
    Lower Unit := do
  let owner ← resolve owner
  let ty ← resolve ty
  match ← bridged (.readField owner name ty receiver) with
  | some access => recur access
  | none =>
    let field := Digest.ofField owner.digest name
    match receiver with
    | some receiver =>
      recur.value receiver
      emit (.getField field)
    | none => emit (.getStatic field)
    discard ty

def writeField (recur : Recur) (owner : Ty) (name : String) (receiver : Option Tree)
    (value : Tree) : Lower Unit := do
  let owner ← resolve owner
  let field := Digest.ofField owner.digest name
  match receiver with
  | some receiver =>
    recur.value receiver
    recur.value value
    emit (.setField field)
  | none =>
    recur.value value
    emit (.setStatic field)

/-- An enum constant is a static field of its type. -/
def enumConstant (ty : Ty) (name : String) : Lower Unit := do
  let ty ← resolve ty
  emit (.getStatic (Digest.ofField ty.digest name))
  discard ty

/-- Virtual calls need a class as the owner and interface calls an interface. -/
def admitsOwner : InvokeKind → TypeKind → Bool
  | .virtual, owner => owner != .interfaceType
  | .interface, owner => owner == .interfaceType
  | _, _ => true

/-- Check the kind of a call against its owner. Owners that the nest does not
know are not checked. -/
def checkInvocation (kind : InvokeKind) (owner : Ty) (name : String) : Lower Unit := do
  match Nest.kindOf? (← nest) owner with
  | some actual =>
    if admitsOwner kind actual then pure ()
    else throw (Fault.invalidInvocation kind owner name actual)
  | none => pure ()

/-- Digest of a called method. A constructor goes by owner and parameters only. -/
def calleeDigest (owner : Ty) (method : Signature) : Digest :=
  if method.name = Signature.constructorName then
    Digest.ofConstructor owner.digest (method.params.map Ty.digest)
  else method.digest owner

/-- Push the receiver of a call, which is the receiver of the routine unless
another is given. -/
def pushReceiver (recur : Recur) (kind : InvokeKind) : Option Tree → Lower Unit
  | some receiver => recur.value receiver
  | none => match kind with
    | .static => pure ()
    | _ => emit Assembler.getThis

def invoke (recur : Recur) (kind : InvokeKind) (owner : Ty) (method : Signature)
    (receiver : Option Tree) (args : List Tree) : Lower Unit := do
  let owner ← resolve owner
  let method ← resolveSignature method
  checkInvocation kind owner method.name
  match ← bridged (.invoke kind owner method receiver args) with
  | some access => recur access
  | none =>
    pushReceiver recur kind receiver
    recur.values args
    emit (.invoke kind (calleeDigest owner method) args.length)
    discard method.result

def create (recur : Recur) (ty : Ty) (params : List Ty) (args : List Tree) : Lower Unit := do
  let ty ← resolve ty
  let params ← resolveAll params
  match ← bridged (.create ty params args) with
  | some access => recur access
  | none =>
    recur.values args
    emit (.create ty.digest (Digest.ofConstructor ty.digest (params.map Ty.digest)) args.length)
    discard ty

end StackLowering.Lowering
