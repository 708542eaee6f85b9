import StackLowering.Tree
/-!
Dense and sparse dispatch. A dense table has an entry for every key of its
range, a sparse one a key and a target for each arm.
-/

namespace StackLowering.Switch

inductive Encoding where
  | table
  | lookup
deriving DecidableEq, Repr

def Encoding.name : Encoding → String
  | table => "Table"
  | lookup => "Lookup"

/-- Number of keys from `low` to `high`. -/
def rangeSize (low high : Int32) : Int := high.toInt - low.toInt + 1

/-- The cheaper encoding of ascending keys. A sparse table is taken when it is
smaller than the gaps that a dense one has to fill. -/
def Encoding.choose (keys : List Int32) : Encoding :=
  match keys.head?, keys.getLast? with
  | some low, some high =>
    let count : Int := keys.length
    let gaps := rangeSize low high - count
    if 3 + 5 * count < 4 * gaps + 9 then lookup else table
  | _, _ => lookup

/-- The keys strictly between `low` and `high`. -/
def keysBetween (low high : Int32) : List Int32 :=
  (List.range (high.toInt - low.toInt - 1).toNat).map fun (i : Nat) =>
    Int32.ofInt (low.toInt + 1 + i)

/-- Extend ascending arms to every key of their range. A key without an arm of
its own redirects to the default. -/
def fillGaps : List (Int32 × Tree) → List (Int32 × Tree)
  | (key, body) :: (next, nextBody) :: rest =>
    (key, body) :: (keysBetween key next).map (·, .redirect) ++ fillGaps ((next, nextBody) :: rest)
  | arms => arms

end StackLowering.Switch
