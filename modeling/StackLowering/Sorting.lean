/-!
Stable insertion sorting under a Boolean order. Elements that compare equal
keep the order they came in.
-/

namespace StackLowering

/-- Insert `x` in front of the first element it is not greater than. -/
def insertBy {α : Type} (le : α → α → Bool) (x : α) : List α → List α
  | [] => [x]
  | y :: ys => if le x y then x :: y :: ys else y :: insertBy le x ys

def sortBy {α : Type} (le : α → α → Bool) : List α → List α
  | [] => []
  | x :: xs => insertBy le x (sortBy le xs)

end StackLowering
