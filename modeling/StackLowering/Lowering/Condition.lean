import StackLowering.Lowering.Handler
/-!
Conditions. Where a condition only decides a jump, its connectives become jumps
and no boolean is computed.
-/

namespace StackLowering.Lowering

open Lower

/-- Jump to `target` when the condition is `sense`, else go on. The right side
of a connective is skipped when the left side decides. -/
def jumpIf (recur : Recur) : Tree → Bool → Label → Lower Unit
  | .logical operator left right, sense, target =>
    if (operator == .or) = sense then do
      jumpIf recur left sense target
      jumpIf recur right sense target
    else do
      let skip ← newLabel
      jumpIf recur left (!sense) skip
      jumpIf recur right sense target
      mark skip
  | .not operand, sense, target => jumpIf recur operand (!sense) target
  | .literal (.bool value), sense, target => if value = sense then jump target else pure ()
  | condition, sense, target => do
    recur.value condition
    emit (.jump (if sense then .jumpIfTrue else .jumpIfFalse) target)

/-- A connective as a value. -/
def logical (recur : Recur) (operator : LogicalOp) (left right : Tree) : Lower Unit := do
  let falsePath ← newLabel
  let done ← newLabel
  jumpIf recur (.logical operator left right) false falsePath
  emit (.bool true)
  jump done
  mark falsePath
  emit (.bool false)
  mark done
  discard Ty.bool

end StackLowering.Lowering
