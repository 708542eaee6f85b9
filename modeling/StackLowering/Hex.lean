/-!
Lower-case hexadecimal text of a fixed width, as used for digests and for the
bit patterns of floating-point numbers.
-/

namespace StackLowering.Hex

/-- The lowest `width` hexadecimal digits of `n`, most significant first. -/
def digits : Nat → Nat → List Char
  | 0, _ => []
  | width + 1, n => digits width (n / 16) ++ [Nat.digitChar (n % 16)]

def text (width n : Nat) : String :=
  String.ofList (digits width n)

end StackLowering.Hex
