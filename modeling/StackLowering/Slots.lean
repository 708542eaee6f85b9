import Std.Data.TreeMap
import Std.Data.TreeSet
import StackLowering.Fault
/-!
Slots of local variables. Variables live in nested scopes and may shadow each
other; leaving a scope brings back what it shadowed. A slot is never handed out
twice, so the frame holds every slot ever allocated. Hidden variables get names
that occur nowhere else in the routine.
-/

namespace StackLowering

structure SlotEntry where
  name : String
  ty : Ty
  slot : UInt16
deriving DecidableEq, Repr

structure Binding where
  ty : Ty
  slot : UInt16
  /-- Scope depth of the declaration. -/
  depth : Nat
deriving DecidableEq, Repr

/-- A binding put aside while a declaration at `depth` hides it. -/
structure Shadow where
  depth : Nat
  name : String
  binding : Binding
deriving DecidableEq, Repr

structure Slots where
  /-- What each name means in the current scope. -/
  bindings : Std.TreeMap String Binding
  /-- Hidden bindings, the latest first. -/
  shadowed : List Shadow
  depth : Nat
  /-- Cells allocated so far. -/
  frameSize : Nat
  /-- Every slot handed out, in order. -/
  table : Array SlotEntry
  /-- Names declared or reserved so far. -/
  usedNames : Std.TreeSet String
  /-- Names generated so far, the latest first. -/
  hiddenNames : List String
  nameCounter : Nat

namespace Slots

def empty : Slots where
  bindings := ∅
  shadowed := []
  depth := 0
  frameSize := 0
  table := #[]
  usedNames := ∅
  hiddenNames := []
  nameCounter := 0

def pushScope (slots : Slots) : Slots := { slots with depth := slots.depth + 1 }

/-- Bring back the bindings hidden at `depth`, from the latest on. -/
def restore (bindings : Std.TreeMap String Binding) (depth : Nat) :
    List Shadow → Std.TreeMap String Binding × List Shadow
  | [] => (bindings, [])
  | shadow :: rest =>
    if shadow.depth = depth then restore (bindings.insert shadow.name shadow.binding) depth rest
    else (bindings, shadow :: rest)

/-- Leave the current scope. The scope of the routine itself is never left. -/
def popScope (slots : Slots) : Slots :=
  if slots.depth = 0 then slots
  else
    let visible := slots.bindings.filter fun _ binding => binding.depth < slots.depth
    let (bindings, shadowed) := restore visible slots.depth slots.shadowed
    { slots with bindings := bindings, shadowed := shadowed, depth := slots.depth - 1 }

/-- The next free slot, which has to fit 16 bits. -/
def nextSlot (slots : Slots) : Except Fault UInt16 :=
  if slots.frameSize < 65536 then .ok (UInt16.ofNat slots.frameSize)
  else .error (.operandOverflow .localSlot slots.frameSize)

/-- Put aside the binding of `name` from an enclosing scope, if there is one. -/
def shadow (slots : Slots) (name : String) : Slots :=
  match slots.bindings[name]? with
  | some existing =>
    if existing.depth = slots.depth then slots
    else { slots with shadowed := ⟨slots.depth, name, existing⟩ :: slots.shadowed }
  | none => slots

/-- Give `name` a slot of its own in the current scope. -/
def allocate (slots : Slots) (name : String) (ty : Ty) (slot : UInt16) : Slots :=
  { slots with
    bindings := slots.bindings.insert name ⟨ty, slot, slots.depth⟩
    frameSize := slots.frameSize + max 1 ty.width
    table := slots.table.push ⟨name, ty, slot⟩
    usedNames := slots.usedNames.insert name }

/-- The slot of a declaration that the current scope already has. -/
def redeclared? (slots : Slots) (name : String) (ty : Ty) : Option UInt16 :=
  match slots.bindings[name]? with
  | some existing =>
    if existing.depth = slots.depth ∧ existing.ty = ty then some existing.slot else none
  | none => none

/-- Declare a variable in the current scope. The same declaration twice in one
scope is one variable. -/
def declare (slots : Slots) (name : String) (ty : Ty) : Except Fault UInt16 × Slots :=
  match slots.redeclared? name ty with
  | some slot => (.ok slot, slots)
  | none =>
    let shadowing := slots.shadow name
    match shadowing.nextSlot with
    | .ok slot => (.ok slot, shadowing.allocate name ty slot)
    | .error fault => (.error fault, shadowing)

/-- What `name` means in the current scope. -/
def lookup? (slots : Slots) (name : String) : Option (UInt16 × Ty) :=
  (slots.bindings[name]?).map fun binding => (binding.slot, binding.ty)

/-- The slot of a visible variable of exactly this type. -/
def require (slots : Slots) (name : String) (ty : Ty) : Except Fault UInt16 :=
  match slots.bindings[name]? with
  | some binding =>
    if binding.ty = ty then .ok binding.slot else .error (.undeclaredVariable name ty none)
  | none => .error (.undeclaredVariable name ty none)

/-- Keep generated names away from `name`. -/
def reserve (slots : Slots) (name : String) : Slots :=
  { slots with usedNames := slots.usedNames.insert name }

/-- The name was declared, reserved or generated. -/
def isUsed (slots : Slots) (name : String) : Bool :=
  slots.usedNames.contains name || slots.hiddenNames.contains name

/-- The first number from `counter` on that makes an unused name of `base`,
among `tries` numbers. -/
def unusedNumber (slots : Slots) (base : String) : Nat → Nat → Nat
  | 0, counter => counter
  | tries + 1, counter =>
    if slots.isUsed (base ++ toString counter) then slots.unusedNumber base tries (counter + 1)
    else counter

/-- A new name that starts with `base`. One more number than there are used
names is tried, so an unused one is among them. -/
def uniqueName (slots : Slots) (base : String) : String × Slots :=
  let tries := slots.usedNames.size + slots.hiddenNames.length + 1
  let number := slots.unusedNumber base tries slots.nameCounter
  let name := base ++ toString number
  (name, { slots with
    nameCounter := number + 1
    hiddenNames := name :: slots.hiddenNames })

end Slots

end StackLowering
