/-!
Settings of a lowering.
-/

namespace StackLowering

structure Options where
  /-- Reach private members of other types of the nest through bridges. -/
  bridges : Bool := true
  /-- Turn `x = x + c` on an int local into a single increment. -/
  fuseUpdates : Bool := true
  /-- The largest dense table a switch may take. -/
  maxTableEntries : Nat := 65536
deriving DecidableEq, Repr

end StackLowering
