import StackLowering.Lowering.Standard
/-!
Lowering the routines of a nest. A session carries the pool, the bridges and
the local routines from one routine to the next. Lowering a whole nest also
lowers the bridges that its routines ask for, and those that bridges ask for,
until there are no new ones.
-/

namespace StackLowering

structure Session where
  env : Env
  handlers : Handlers
  shared : Shared
  /-- Routines declared in bodies lowered so far and not taken yet. -/
  localRoutines : List Routine

/-- A nest lowered as a whole. -/
structure LoweredNest where
  /-- Declared routines in the order of the nest, each followed by those
  declared in its body, and then the routines of bridges. -/
  routines : List Routine
  bridges : List Bridge
  /-- Types declared for constructor bridges. -/
  markers : List TypeDecl
  constants : List Constant

/-- The first routine of `owner` called `name`. -/
def LoweredNest.routine? (lowered : LoweredNest) (owner : Ty) (name : String) : Option Routine :=
  lowered.routines.find? fun routine => routine.owner == owner && routine.name == name

/-- The routines a type declares: constructors, then methods. -/
def TypeDecl.routines (decl : TypeDecl) : List RoutineDecl :=
  decl.constructors.filterMap (RoutineDecl.ofConstructor? decl.ty) ++
    decl.methods.filterMap (RoutineDecl.ofMethod? decl.ty)

namespace Session

def new (nest : Nest) (options : Options) (handlers : Handlers) : Session where
  env := ⟨nest, options⟩
  handlers := handlers
  shared := .empty
  localRoutines := []

/-- Lower one routine. Routines declared in its body wait to be taken. -/
def lowerRoutine (session : Session) (decl : RoutineDecl) : Except Fault Routine × Session :=
  match Lowering.routine session.handlers.process decl session.env session.shared with
  | (.ok (routine, locals), shared) =>
    (.ok routine, { session with
      shared := shared
      localRoutines := session.localRoutines ++ locals })
  | (.error fault, shared) => (.error fault, { session with shared := shared })

/-- The routine of the method of `owner` with this signature. -/
def findMethod (session : Session) (owner : Ty) (signature : Signature) :
    Except Fault RoutineDecl :=
  match session.env.nest.get? owner with
  | none => .error (.unknownType owner)
  | some decl =>
    let method? := decl.methods.find? (·.signature == signature)
    match method?.bind (RoutineDecl.ofMethod? owner) with
    | some routine => .ok routine
    | none => .error (.unknownMember owner signature.name)

def lowerMethod (session : Session) (owner : Ty) (signature : Signature) :
    Except Fault Routine × Session :=
  match session.findMethod owner signature with
  | .ok decl => session.lowerRoutine decl
  | .error fault => (.error fault, session)

/-- Take the local routines that are waiting. -/
def takeLocalRoutines (session : Session) : List Routine × Session :=
  (session.localRoutines, { session with localRoutines := [] })

/-- Lower routines in order, each followed by those declared in its body. -/
def lowerAll (session : Session) : List RoutineDecl → Except Fault (List Routine × Session)
  | [] => .ok ([], session)
  | decl :: rest => do
    let (result, session) := session.lowerRoutine decl
    let routine ← result
    let (locals, session) := session.takeLocalRoutines
    let (routines, session) ← session.lowerAll rest
    return (routine :: locals ++ routines, session)

/-- Lower the bridges from position `start` on, and then the bridges these ask
for, in at most `rounds` rounds. -/
def lowerBridges (session : Session) (start : Nat) : Nat → Except Fault (List Routine × Session)
  | 0 => .ok ([], session)
  | rounds + 1 =>
    match session.shared.bridges.drop start with
    | [] => .ok ([], session)
    | pending => do
      let (routines, next) ← session.lowerAll (pending.filterMap Bridge.routine?)
      let (later, done) ← next.lowerBridges (start + pending.length) rounds
      return (routines ++ later, done)

/-- Lower every routine of the nest and all bridges. Every round of bridges but
the last adds one for another private member, so there are no more rounds than
members. -/
def lowerNest (session : Session) : Except Fault LoweredNest := do
  let nest := session.env.nest
  let (declared, session) ← session.lowerAll (nest.members.flatMap TypeDecl.routines)
  let (bridged, session) ← session.lowerBridges 0 (nest.memberCount + 1)
  return {
    routines := declared ++ bridged
    bridges := session.shared.bridges.entries
    markers := session.shared.bridges.markers
    constants := session.shared.pool.entries.toList }

end Session

end StackLowering
