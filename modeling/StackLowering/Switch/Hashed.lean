import StackLowering.Fault
import StackLowering.Switch.Hash
import StackLowering.Tree.Subtrees
/-!
Switches over texts and objects, expressed as a switch over hash codes. Arms
with the same hash share a bucket. A bucket compares the subject with each of
its values and goes on at the default arm when none is equal.
-/

namespace StackLowering.Switch

/-- Values that share one body, in the order they are written. -/
structure Group where
  values : List Tree
  body : Tree

/-- Collect arms into groups, each closed by a body that is not empty; `pending`
are the values of the group still open. Values in front of the default are
dropped, because they reach it anyway, and a last group without a body leaves
the switch. The second component holds the bodies of default arms. -/
def groupArms (pending : List Tree) : List Arm → List Group × List Tree
  | [] => (if pending.isEmpty then [] else [⟨pending, .breakTo none⟩], [])
  | ⟨none, body⟩ :: rest =>
    let (groups, defaults) := groupArms [] rest
    (groups, body :: defaults)
  | ⟨some value, body⟩ :: rest =>
    if body.isEmpty then groupArms (pending ++ [value]) rest
    else
      let (groups, defaults) := groupArms [] rest
      (⟨pending ++ [value], body⟩ :: groups, defaults)

/-- The value of an arm as an argument, boxed if it is a primitive. -/
def argument (value : Tree) : Tree :=
  match value.valueType.prim?.bind Ty.boxed? with
  | some box => .cast box value
  | none => value

/-- Hashes of the values of a group, each with its argument. Literals in `seen`
may not occur again. -/
def hashValues (seen : List Literal) :
    List Tree → Except Fault (List (Int32 × Tree) × List Literal)
  | [] => .ok ([], seen)
  | value :: rest =>
    match value with
    | .literal literal =>
      match literal.hash? with
      | none => .error (.unresolvableArmValue value)
      | some hash =>
        if seen.any literal.sameValue then .error (.duplicateArmValue hash value)
        else do
          let (hashed, seen) ← hashValues (literal :: seen) rest
          return ((hash, argument value) :: hashed, seen)
    | _ => .error (.unresolvableArmValue value)

/-- Add a value under its hash. -/
def addHashed (buckets : List (Int32 × List Tree)) (hash : Int32) (value : Tree) :
    List (Int32 × List Tree) :=
  match buckets with
  | [] => [(hash, [value])]
  | (other, values) :: rest =>
    if other = hash then (other, values ++ [value]) :: rest
    else (other, values) :: addHashed rest hash value

/-- One candidate of a bucket: any of its values selects the body. -/
structure Candidate where
  values : List Tree
  body : Tree

/-- Candidates for one hash. -/
structure Bucket where
  hash : Int32
  candidates : List Candidate

/-- Add a candidate behind those with the same hash. Buckets are in ascending
order of their hashes. -/
def addCandidate (buckets : List Bucket) (hash : Int32) (candidate : Candidate) : List Bucket :=
  match buckets with
  | [] => [⟨hash, [candidate]⟩]
  | bucket :: rest =>
    if hash = bucket.hash then ⟨hash, bucket.candidates ++ [candidate]⟩ :: rest
    else if hash.toInt < bucket.hash.toInt then ⟨hash, [candidate]⟩ :: bucket :: rest
    else bucket :: addCandidate rest hash candidate

/-- Add a group. It has a candidate in the bucket of every hash among its values. -/
def addGroup (buckets : List Bucket) (hashed : List (Int32 × Tree)) (body : Tree) :
    List Bucket :=
  let byHash := hashed.foldl (fun acc pair => addHashed acc pair.1 pair.2) []
  byHash.foldl (fun acc entry => addCandidate acc entry.1 ⟨entry.2, body⟩) buckets

/-- Distribute groups over buckets. -/
def bucketsOf (buckets : List Bucket) (seen : List Literal) :
    List Group → Except Fault (List Bucket)
  | [] => .ok buckets
  | group :: rest => do
    let (hashed, seen) ← hashValues seen group.values
    bucketsOf (addGroup buckets hashed group.body) seen rest

/-- The subject is equal to one of the values. -/
def anyEqual (equals : Tree → Tree) : List Tree → Tree
  | [] => .bool false
  | value :: rest => rest.foldl (fun left value => .logical .or left (equals value)) (equals value)

/-- Run the first candidate that matches, and then or else go on at the default. -/
def chain (equals : Tree → Tree) : List Candidate → Tree
  | [] => .redirect
  | [last] => .branch (anyEqual equals last.values) (.block [last.body, .redirect]) none
  | candidate :: rest =>
    .branch (.not (anyEqual equals candidate.values)) (chain equals rest)
      (some (.block [candidate.body, .redirect]))

/-- The switch over hash codes that stands for a switch over texts or objects.
The subject is kept in the variable `name`. -/
def hashed (kind : SwitchKind) (label : Option String) (subject : Tree) (arms : List Arm)
    (subjectTy : Ty) (name : String) : Except Fault Tree := do
  let owner := if kind = .text then Ty.text else Ty.root
  let read := Tree.readLocal name subjectTy
  let equals := fun value =>
    Tree.invoke .virtual owner ⟨"equals", Ty.bool, [Ty.root]⟩ (some read) [value]
  let hashCode := Tree.invoke .virtual owner ⟨"hashCode", Ty.int, []⟩ (some read) []
  let (groups, defaults) := groupArms [] arms
  let buckets ← bucketsOf [] [] groups
  let keyed := buckets.map fun bucket => Arm.new (.int bucket.hash) (chain equals bucket.candidates)
  return .block
    [.declareLocal name subjectTy (some subject),
     .switch label .int hashCode (keyed ++ defaults.map Arm.otherwise)]

end StackLowering.Switch
