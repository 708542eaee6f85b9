import StackLowering.Nest
/-!
Bridges. The types of a nest may use each other's private members, but on the
machine a type reaches only its own. An access to a private member of another
type of the nest is turned into a use of a bridge, a hidden member that the
owner declares for this purpose: a static method that reads the field or
forwards the call, or a constructor with one more parameter of a marker type.
All types that access the same member share one bridge. Writing a field is
never bridged.
-/

namespace StackLowering

/-- Identity of a member that can be bridged. -/
inductive Member where
  | field (owner : Ty) (name : String)
  | method (owner : Ty) (signature : Signature)
  | constructor (owner : Ty) (params : List Ty)
deriving DecidableEq, Repr

def Member.owner : Member → Ty
  | field owner _ | method owner _ | constructor owner _ => owner

/-- The member a bridge declares on its owner. -/
inductive BridgeDecl where
  | method (decl : Method)
  | constructor (decl : Constructor)

structure Bridge where
  member : Member
  /-- Types that use the bridge, in the order of their first use. -/
  requesters : List Ty
  decl : BridgeDecl

namespace Bridge

def owner (bridge : Bridge) : Ty := bridge.member.owner

/-- The bridge is a method rather than a constructor. -/
def isAccessor (bridge : Bridge) : Bool :=
  match bridge.decl with
  | .method _ => true
  | .constructor _ => false

/-- Note a type that uses the bridge. -/
def addRequester (bridge : Bridge) (requester : Ty) : Bridge :=
  if bridge.requesters.contains requester then bridge
  else { bridge with requesters := bridge.requesters ++ [requester] }

/-- The routine of a bridge, lowered like any other routine of its owner. -/
def routine? (bridge : Bridge) : Option RoutineDecl :=
  match bridge.decl with
  | .method decl => RoutineDecl.ofMethod? bridge.owner decl
  | .constructor decl => RoutineDecl.ofConstructor? bridge.owner decl

def receiverName : String := "$receiver"

def markerName : String := "access$"

/-- Static, final and hidden, without an access flag: visible in the package. -/
def modifiers : Modifiers := .staticFlag ||| .finalFlag ||| .syntheticFlag

/-- The parameter that takes the receiver of an instance member. -/
def receiverParams (owner : Ty) (isStatic : Bool) : List Param :=
  if isStatic then [] else [⟨receiverName, owner⟩]

/-- The receiver inside a bridge of an instance member. -/
def receiverTree? (owner : Ty) (isStatic : Bool) : Option Tree :=
  if isStatic then none else some (.readLocal receiverName owner)

def readParam (param : Param) : Tree := .readLocal param.name param.ty

/-- Parameters of the given types under the declared names. -/
def namedParams (types : List Ty) (declared : List Param) : List Param :=
  types.zipWith (fun ty param => ⟨param.name, ty⟩) declared

/-- A method that reads the field `name` of `owner`. -/
def fieldAccessor (accessor : String) (owner : Ty) (name : String) (ty : Ty) (isStatic : Bool) :
    Method where
  name := accessor
  modifiers := modifiers
  result := ty
  params := receiverParams owner isStatic
  body := some (.ret (some (.readField owner name ty (receiverTree? owner isStatic))))

/-- A method that forwards a call to `method` of `owner`. -/
def forwarder (accessor : String) (owner : Ty) (method : Signature) (declared : List Param)
    (isStatic : Bool) : Method :=
  let params := namedParams method.params declared
  let kind := if isStatic then InvokeKind.static else .special
  let call := Tree.invoke kind owner method (receiverTree? owner isStatic) (params.map readParam)
  { name := accessor
    modifiers := modifiers
    result := method.result
    params := receiverParams owner isStatic ++ params
    body := some (if method.result.isVoid then .block [call, .ret none] else .ret (some call)) }

/-- A constructor that delegates to the one with parameters `types`. -/
def delegate (owner : Ty) (types : List Ty) (declared : List Param) (marker : Ty) : Constructor :=
  let params := namedParams types declared
  let signature : Signature := ⟨Signature.constructorName, Ty.void, types⟩
  let call := Tree.invoke .special owner signature (some .self) (params.map readParam)
  { modifiers := .syntheticFlag
    params := params ++ [⟨markerName, marker⟩]
    body := some (.block [call, .ret none]) }

end Bridge

/-- All bridges of a nest, in the order they were asked for. -/
structure Bridges where
  entries : List Bridge
  /-- Number of the next marker type to try. -/
  markerCount : Nat
  /-- Marker types declared for constructor bridges. -/
  markers : List TypeDecl

/-- The access reaches a private member of another type of the nest. -/
def Nest.crosses (nest : Nest) (requester owner : Ty) (modifiers : Modifiers) : Bool :=
  modifiers.isPrivate && owner != requester && nest.contains owner && nest.contains requester

namespace Bridges

def empty : Bridges := ⟨[], 0, []⟩

def size (bridges : Bridges) : Nat := bridges.entries.length

def find? (bridges : Bridges) (member : Member) : Option Bridge :=
  bridges.entries.find? (·.member == member)

/-- Bridges from position `start` on. -/
def drop (bridges : Bridges) (start : Nat) : List Bridge := bridges.entries.drop start

/-- Name of the next method bridge on `owner`; they are numbered from 0. -/
def nextAccessor (bridges : Bridges) (owner : Ty) : String :=
  "accessor$" ++
    toString (bridges.entries.countP fun bridge => bridge.owner == owner && bridge.isAccessor)

/-- Note that `requester` uses the bridge of `member`. -/
def addRequester (bridges : Bridges) (member : Member) (requester : Ty) : Bridges :=
  { bridges with
    entries := bridges.entries.map fun bridge =>
      if bridge.member = member then bridge.addRequester requester else bridge }

def addBridge (bridges : Bridges) (member : Member) (requester : Ty) (decl : BridgeDecl) :
    Bridges :=
  { bridges with entries := bridges.entries ++ [⟨member, [requester], decl⟩] }

/-- The bridge method for `member`, declared by `build` under its name if there
is none yet. -/
def accessor (bridges : Bridges) (member : Member) (requester : Ty) (build : String → Method) :
    Option (Method × Bridges) :=
  match bridges.find? member with
  | some ⟨_, _, .method decl⟩ => some (decl, bridges.addRequester member requester)
  | some ⟨_, _, .constructor _⟩ => none
  | none =>
    let decl := build (bridges.nextAccessor member.owner)
    some (decl, bridges.addBridge member requester (.method decl))

/-- A type that the nest knows, or a marker already. -/
def isTaken (bridges : Bridges) (nest : Nest) (ty : Ty) : Bool :=
  (nest.get? ty).isSome || bridges.markers.any (·.ty == ty)

def markerType (base : Ty) (number : Nat) : Ty :=
  .object (base.display ++ "$" ++ toString number)

/-- The first free marker number from `number` on, among `tries` numbers. -/
def freeMarker (bridges : Bridges) (nest : Nest) (base : Ty) : Nat → Nat → Nat
  | 0, number => number
  | tries + 1, number =>
    if bridges.isTaken nest (markerType base number) then
      bridges.freeMarker nest base tries (number + 1)
    else number

/-- A new marker type nested in `owner` and named after the top-level type. One
more number than there are known types is tried, so a free one is among them. -/
def newMarker (bridges : Bridges) (nest : Nest) (owner : Ty) : Ty × Bridges :=
  let base := nest.outermost owner
  let tries := nest.members.length + nest.externals.length + bridges.markers.length + 1
  let number := bridges.freeMarker nest base tries bridges.markerCount
  let marker := markerType base number
  let decl := { TypeDecl.bare marker .classType Bridge.modifiers with outer := some owner }
  (marker, { bridges with
    markerCount := number + 1
    markers := bridges.markers ++ [decl] })

/-- The bridge constructor for the constructor of `owner` with parameters `types`. -/
def constructor (bridges : Bridges) (nest : Nest) (requester owner : Ty) (types : List Ty)
    (declared : List Param) : Option (Constructor × Bridges) :=
  let member := Member.constructor owner types
  match bridges.find? member with
  | some ⟨_, _, .constructor decl⟩ => some (decl, bridges.addRequester member requester)
  | some ⟨_, _, .method _⟩ => none
  | none =>
    let (marker, bridges) := bridges.newMarker nest owner
    let decl := Bridge.delegate owner types declared marker
    some (decl, bridges.addBridge member requester (.constructor decl))

/-- The use of a bridge in place of `access`, if `requester` may not perform it
directly. Symbolic types in `access` are resolved already. -/
def access? (bridges : Bridges) (nest : Nest) (requester : Ty) : Tree → Option (Tree × Bridges)
  | .readField owner name ty receiver => do
    let field ← nest.field? owner name
    guard (nest.crosses requester owner field.modifiers)
    let isStatic := field.modifiers.isStatic
    let (decl, bridges) ← bridges.accessor (.field owner name) requester
      (Bridge.fieldAccessor · owner name ty isStatic)
    let args := if isStatic then [] else [receiver.getD .self]
    return (.invoke .static owner decl.signature none args, bridges)
  | .invoke _ owner method receiver args => do
    let found ← nest.method? owner method
    guard (nest.crosses requester owner found.modifiers)
    let isStatic := found.modifiers.isStatic
    let (decl, bridges) ← bridges.accessor (.method owner method) requester
      (Bridge.forwarder · owner method found.params isStatic)
    let args := if isStatic then args else receiver.getD .self :: args
    return (.invoke .static owner decl.signature none args, bridges)
  | .create ty params args => do
    let found ← nest.constructor? ty params
    guard (nest.crosses requester ty found.modifiers)
    let (decl, bridges) ← bridges.constructor nest requester ty params found.params
    return (.create ty decl.paramTypes (args ++ [.null]), bridges)
  | _ => none

end Bridges

end StackLowering
