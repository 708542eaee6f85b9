/-!
The 64-bit xxHash of a byte string with seed 0. Input of at least 32 bytes is
consumed in stripes of four lanes; the rest is folded in by words of eight,
four and one byte, and a final avalanche spreads every bit.
-/

namespace StackLowering.XxHash64

def prime1 : UInt64 := 0x9E3779B185EBCA87
def prime2 : UInt64 := 0xC2B2AE3D27D4EB4F
def prime3 : UInt64 := 0x165667B19E3779F9
def prime4 : UInt64 := 0x85EBCA77C2B2AE63
def prime5 : UInt64 := 0x27D4EB2F165667C5

def rotateLeft (x n : UInt64) : UInt64 :=
  (x <<< n) ||| (x >>> (64 - n))

/-- The little-endian number a byte string stands for. -/
def littleEndian (bytes : List UInt8) : UInt64 :=
  bytes.foldr (fun byte high => byte.toUInt64 ||| (high <<< 8)) 0

def round (lane word : UInt64) : UInt64 :=
  rotateLeft (lane + word * prime2) 31 * prime1

/-- The four accumulators running over the stripes. -/
structure Lanes where
  a : UInt64
  b : UInt64
  c : UInt64
  d : UInt64

def Lanes.start : Lanes :=
  ⟨prime1 + prime2, prime2, 0, 0 - prime1⟩

def Lanes.absorb (lanes : Lanes) (stripe : List UInt8) : Lanes :=
  let word (i : Nat) := littleEndian ((stripe.drop (8 * i)).take 8)
  ⟨round lanes.a (word 0), round lanes.b (word 1),
    round lanes.c (word 2), round lanes.d (word 3)⟩

/-- Absorb `count` stripes and return the lanes with the bytes left over. -/
def Lanes.absorbAll (lanes : Lanes) : Nat → List UInt8 → Lanes × List UInt8
  | 0, bytes => (lanes, bytes)
  | count + 1, bytes => (lanes.absorb (bytes.take 32)).absorbAll count (bytes.drop 32)

def Lanes.merge (lanes : Lanes) : UInt64 :=
  let sum := rotateLeft lanes.a 1 + rotateLeft lanes.b 7 +
    rotateLeft lanes.c 12 + rotateLeft lanes.d 18
  [lanes.a, lanes.b, lanes.c, lanes.d].foldl
    (fun acc lane => (acc ^^^ round 0 lane) * prime1 + prime4) sum

/-- Fold in the bytes after the last stripe: eight at a time, then at most one
word of four, then single bytes. -/
def absorbTail (acc : UInt64) : List UInt8 → UInt64
  | b0 :: b1 :: b2 :: b3 :: b4 :: b5 :: b6 :: b7 :: rest =>
    let word := littleEndian [b0, b1, b2, b3, b4, b5, b6, b7]
    absorbTail (rotateLeft (acc ^^^ round 0 word) 27 * prime1 + prime4) rest
  | b0 :: b1 :: b2 :: b3 :: rest =>
    let word := littleEndian [b0, b1, b2, b3]
    absorbTail (rotateLeft (acc ^^^ (word * prime1)) 23 * prime2 + prime3) rest
  | b :: rest => absorbTail (rotateLeft (acc ^^^ (b.toUInt64 * prime5)) 11 * prime1) rest
  | [] => acc

def avalanche (acc : UInt64) : UInt64 :=
  let acc := (acc ^^^ (acc >>> 33)) * prime2
  let acc := (acc ^^^ (acc >>> 29)) * prime3
  acc ^^^ (acc >>> 32)

def hash (bytes : List UInt8) : UInt64 :=
  let length := bytes.length
  let (start, rest) :=
    if 32 ≤ length then
      let (lanes, rest) := Lanes.start.absorbAll (length / 32) bytes
      (lanes.merge, rest)
    else (prime5, bytes)
  avalanche (absorbTail (start + UInt64.ofNat length) rest)

/-- The hash of a text is the hash of its UTF-8 bytes. -/
def hashText (text : String) : UInt64 :=
  hash text.toUTF8.data.toList

end StackLowering.XxHash64
