import StackLowering.Lowering.Condition
import StackLowering.Lowering.Exit
/-!
Conditional branches.
-/

namespace StackLowering.Lowering

open Lower

/-- Code that runs cleanups on the way to the default arm of a switch. -/
structure Detour where
  label : Label
  /-- Index of the first cleanup to run. -/
  start : Nat
  target : Label

/-- Where a failed condition goes, and the detour there if it needs one. When
the body redirects to the default arm of a switch, so does a failed condition;
it passes through the cleanups inside that switch. -/
def missTarget (body : Tree) (otherwise : Option Tree) (elseLabel done : Label) :
    Lower (Label × Option Detour) := do
  if body.endsWithRedirect then
    let (depth, target) ← defaultTarget
    let state ← get
    let start := state.firstCleanupInside depth
    if start < state.cleanups.length then
      let label ← newLabel
      return (label, some ⟨label, start, target⟩)
    else
      return (target, none)
  else
    return (if otherwise.isSome then elseLabel else done, none)

def branch (recur : Recur) (condition body : Tree) (otherwise : Option Tree) : Lower Unit := do
  let start ← newLabel
  let bodyLabel ← newLabel
  let elseLabel ← newLabel
  let done ← newLabel
  let (miss, detour) ← missTarget body otherwise elseLabel done
  mark start
  jumpIf recur condition false miss
  mark bodyLabel
  recur.inScope body
  if let some detour := detour then
    mark detour.label
    inlineCleanups recur detour.start
    jump detour.target
  if let some tree := otherwise then
    jump done
    mark elseLabel
    recur.inScope tree
  mark done

end StackLowering.Lowering
