import StackLowering.Fault
import StackLowering.Sorting
/-!
Arms of a switch over ints: their keys in ascending order, and the default.
-/

namespace StackLowering.Switch

/-- An arm with its key. -/
structure KeyedArm where
  key : Int32
  value : Tree
  body : Tree

/-- The key that the value of an arm stands for. -/
def armKey (value : Tree) : Except Fault Int32 :=
  match value with
  | .literal (.int v) => .ok v
  | .literal (.short v) => .ok v.toInt32
  | .literal (.byte v) => .ok v.toInt32
  | .literal (.char v) => .ok (Int32.ofNat v.toNat)
  | .literal (.long v) =>
    if -2147483648 ≤ v.toInt ∧ v.toInt ≤ 2147483647 then .ok (Int32.ofInt v.toInt)
    else .error (.tableCapacityExceeded v.toInt v.toInt)
  | _ => .error (.unresolvableArmValue value)

/-- Split arms into those with a key and the body of the default, of which
`found` was met before. -/
def splitArms (switch : Tree) (found : Option Tree) :
    List Arm → Except Fault (List KeyedArm × Option Tree)
  | [] => .ok ([], found)
  | ⟨none, body⟩ :: rest =>
    if found.isSome then .error (.duplicateDefault switch)
    else splitArms switch (some body) rest
  | ⟨some value, body⟩ :: rest => do
    let key ← armKey value
    let (keyed, otherwise) ← splitArms switch found rest
    return (⟨key, value, body⟩ :: keyed, otherwise)

/-- The first arm whose key is also that of the arm before it. -/
def repeatedArm? : List KeyedArm → Option KeyedArm
  | first :: second :: rest =>
    if first.key = second.key then some second else repeatedArm? (second :: rest)
  | _ => none

/-- The arms of `switch` in the order of their keys, which have to differ, and
the body of the default. -/
def collectArms (switch : Tree) (arms : List Arm) :
    Except Fault (List (Int32 × Tree) × Option Tree) := do
  let (keyed, otherwise) ← splitArms switch none arms
  let sorted := sortBy (fun a b => decide (a.key.toInt ≤ b.key.toInt)) keyed
  match repeatedArm? sorted with
  | some arm => throw (.duplicateArmValue arm.key arm.value)
  | none => return (sorted.map fun arm => (arm.key, arm.body), otherwise)

end StackLowering.Switch
