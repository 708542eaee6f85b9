import StackLowering.Lowering.Handler
import StackLowering.Switch.Arms
import StackLowering.Switch.Encoding
import StackLowering.Switch.Hashed
/-!
Switches. A switch over ints is dispatched on directly; the others become
switches over ints first: enums over ordinals, texts and objects over hashes.
-/

namespace StackLowering.Lowering

open Lower

/-- The subject as a 32-bit key. Boxed integers are unboxed. -/
def intSubject (subject : Tree) : Lower Tree := do
  let ty ← resolve subject.valueType
  if ty.prim?.any Prim.isSwitchable then
    return subject
  else
    match ty.unboxed?.filter Prim.isSwitchable with
    | some prim => return .cast (.prim prim) subject
    | none => throw (.nonNumericSubject ty subject)

/-- The arms to dispatch on. A dense table also has entries for the gaps, and
is limited in size. -/
def dispatchedArms (encoding : Switch.Encoding) (maxEntries : Nat) (arms : List (Int32 × Tree)) :
    Except Fault (List (Int32 × Tree)) :=
  match encoding, arms.head?, arms.getLast? with
  | .table, some (low, _), some (high, _) =>
    if Switch.rangeSize low high > maxEntries then
      .error (.tableCapacityExceeded low.toInt high.toInt)
    else .ok (Switch.fillGaps arms)
  | _, _, _ => .ok arms

/-- The label an arm is dispatched to. Arms that only redirect go straight to
the default. -/
def armTarget (otherwise : Label) (arm : Int32 × Tree) : Lower (Int32 × Label) := do
  if arm.2.isPureRedirect then
    return (arm.1, otherwise)
  else
    return (arm.1, ← newLabel)

def emitDispatch (encoding : Switch.Encoding) (otherwise : Label)
    (targets : List (Int32 × Label)) : Lower Unit :=
  match encoding, targets.head?, targets.getLast? with
  | .table, some (low, _), some (high, _) =>
    emit (.tableSwitch low high otherwise (targets.map Prod.snd))
  | _, _, _ => emit (.lookupSwitch otherwise targets)

/-- A switch over ints. Bodies are laid out by ascending keys and run into the
next one; the default comes last. -/
def intSwitch (recur : Recur) (label : Option String) (subject : Tree) (arms : List Arm) :
    Lower Unit := do
  let key ← intSubject subject
  let (keyed, defaultBody) ←
    orFail (Switch.collectArms (.switch label .int subject arms) arms)
  let encoding := Switch.Encoding.choose (keyed.map Prod.fst)
  let dispatched ← orFail (dispatchedArms encoding (← options).maxTableEntries keyed)
  let entry ← newLabel
  let bodyEntry ← newLabel
  let otherwise ← newLabel
  let exit ← newLabel
  mark entry
  modify (State.pushFlow ⟨.switch, label, entry, bodyEntry, otherwise, exit⟩)
  recur.value key
  let targets ← dispatched.mapM (armTarget otherwise)
  emitDispatch encoding otherwise targets
  mark bodyEntry
  (dispatched.zip targets).forM fun (arm, target) =>
    if target.2 = otherwise then pure ()
    else do
      mark target.2
      recur.inScope arm.2
  mark otherwise
  if let some body := defaultBody then
    recur.inScope body
  modify State.popFlow
  mark exit

/-- An arm over the ordinal of the enum constant it names. -/
def ordinalArm (arm : Arm) : Lower Arm := do
  match arm.value with
  | none => return arm
  | some (.enumConstant ty name) =>
    let resolved ← resolve ty
    match (← nest).ordinal? resolved name with
    | some ordinal => return .new (.int (Int32.ofNat ordinal)) arm.body
    | none => throw (.unresolvableArmValue (.enumConstant ty name))
  | some value => throw (.unresolvableArmValue value)

def enumSwitch (recur : Recur) (label : Option String) (subject : Tree) (arms : List Arm) :
    Lower Unit := do
  let arms ← arms.mapM ordinalArm
  let ordinal := Tree.invoke .virtual Ty.enumRoot ⟨"ordinal", Ty.int, []⟩ (some subject) []
  recur (.switch label .int ordinal arms)

def hashedSwitch (recur : Recur) (label : Option String) (kind : SwitchKind) (subject : Tree)
    (arms : List Arm) : Lower Unit :=
  withSlotScope do
    let subjectTy ← resolve subject.valueType
    let name ← uniqueName "$subject"
    recur (← orFail (Switch.hashed kind label subject arms subjectTy name))

def switch (recur : Recur) (label : Option String) (kind : SwitchKind) (subject : Tree)
    (arms : List Arm) : Lower Unit :=
  match kind with
  | .int => intSwitch recur label subject arms
  | .enum => enumSwitch recur label subject arms
  | .text | .object => hashedSwitch recur label kind subject arms

end StackLowering.Lowering
