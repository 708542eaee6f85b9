import Std.Data.TreeMap.Lemmas
import StackLowering.Digest
/-!
The constant pool shared by all routines of a nest. A constant is stored once;
constants are told apart by kind and exact bits, so the two zeros of a
floating-point type and NaNs with different payloads are different constants.
-/

namespace StackLowering

inductive Constant where
  | int (value : Int32)
  | long (value : Int64)
  | float (bits : UInt32)
  | double (bits : UInt64)
  /-- UTF-8 bytes of a text. -/
  | bytes (value : List UInt8)
  | digest (value : Digest)
deriving DecidableEq, Repr

/-- Bytes read as a number, the first byte lowest. A one behind the last byte
keeps zero bytes at the end apart. -/
def bytesKey : List UInt8 → Nat
  | [] => 1
  | byte :: rest => 256 * bytesKey rest + byte.toNat

theorem bytesKey_pos (bytes : List UInt8) : 0 < bytesKey bytes := by
  induction bytes with
  | nil => simp [bytesKey]
  | cons byte rest ih => simp only [bytesKey]; omega

theorem bytesKey_inj {a b : List UInt8} (h : bytesKey a = bytesKey b) : a = b := by
  induction a generalizing b with
  | nil =>
    cases b with
    | nil => rfl
    | cons y ys =>
      have := bytesKey_pos ys
      simp only [bytesKey] at h
      omega
  | cons x xs ih =>
    have hx := x.toNat_lt
    cases b with
    | nil =>
      have := bytesKey_pos xs
      simp only [bytesKey] at h
      omega
    | cons y ys =>
      have hy := y.toNat_lt
      simp only [bytesKey] at h
      have hhead : x.toNat = y.toNat := by omega
      have htail : bytesKey xs = bytesKey ys := by omega
      rw [UInt8.toNat_inj.mp hhead, ih htail]

/-- A number of its own for every constant: the kind is the remainder modulo
six, and the bits are the quotient. -/
def Constant.key : Constant → Nat
  | int value => 6 * value.toUInt32.toNat
  | long value => 6 * value.toUInt64.toNat + 1
  | float bits => 6 * bits.toNat + 2
  | double bits => 6 * bits.toNat + 3
  | bytes value => 6 * bytesKey value + 4
  | digest value => 6 * value.bits.toNat + 5

theorem Constant.key_inj {a b : Constant} (h : a.key = b.key) : a = b := by
  cases a <;> cases b <;> simp only [key] at h <;> try omega
  case int.int x y =>
    have hbits : x.toUInt32 = y.toUInt32 := UInt32.toNat_inj.mp (by omega)
    exact congrArg (fun bits => int ⟨bits⟩) hbits
  case long.long x y =>
    have hbits : x.toUInt64 = y.toUInt64 := UInt64.toNat_inj.mp (by omega)
    exact congrArg (fun bits => long ⟨bits⟩) hbits
  case float.float x y => exact congrArg float (UInt32.toNat_inj.mp (by omega))
  case double.double x y => exact congrArg double (UInt64.toNat_inj.mp (by omega))
  case bytes.bytes x y => exact congrArg bytes (bytesKey_inj (by omega))
  case digest.digest x y =>
    have hbits : x.bits = y.bits := UInt64.toNat_inj.mp (by omega)
    exact congrArg (fun bits => digest ⟨bits⟩) hbits

structure Pool where
  entries : Array Constant
  /-- Index of every entry by its key. -/
  index : Std.TreeMap Nat Nat
  /-- The index leads to the entry with the key, and to every entry. -/
  indexed (key position : Nat) : index[key]? = some position ↔
    ∃ constant, entries[position]? = some constant ∧ constant.key = key

namespace Pool

def empty : Pool where
  entries := #[]
  index := ∅
  indexed := by simp

def size (pool : Pool) : Nat := pool.entries.size

def get? (pool : Pool) (index : Nat) : Option Constant := pool.entries[index]?

theorem indexed_push (pool : Pool) {constant : Constant}
    (hnew : pool.index[constant.key]? = none) (key position : Nat) :
    (pool.index.insert constant.key pool.size)[key]? = some position ↔
      ∃ other, (pool.entries.push constant)[position]? = some other ∧ other.key = key := by
  have hold := pool.indexed key position
  rw [Std.TreeMap.getElem?_insert, Array.getElem?_push]
  by_cases hlast : position = pool.entries.size
  · have hnone : ¬ pool.index[key]? = some position := by
      rw [hold, hlast]
      simp
    by_cases hkey : constant.key = key
    · simp [hlast, hkey, size]
    · rw [hlast] at hnone
      simp [hlast, hkey, hnone]
  · by_cases hkey : constant.key = key
    · subst hkey
      rw [hnew] at hold
      simp only [hlast, if_false, ← hold]
      simpa [size] using fun heq => hlast heq.symm
    · simp [hlast, hkey, hold]

/-- A constant that is not in the pool yet, at the end. -/
def push (pool : Pool) (constant : Constant) (hnew : pool.index[constant.key]? = none) : Pool where
  entries := pool.entries.push constant
  index := pool.index.insert constant.key pool.size
  indexed := pool.indexed_push hnew

/-- Index of a constant, which is added at the end if it is new. -/
def add (pool : Pool) (constant : Constant) : Nat × Pool :=
  match h : pool.index[constant.key]? with
  | some index => (index, pool)
  | none => (pool.size, pool.push constant h)

/-- The index that is returned leads to the constant. -/
theorem get?_add (pool : Pool) (constant : Constant) :
    (pool.add constant).2.get? (pool.add constant).1 = some constant := by
  unfold add
  split
  · rename_i index hindex
    obtain ⟨other, hother, hkey⟩ := (pool.indexed _ index).mp hindex
    rw [get?, hother, Constant.key_inj hkey]
  · simp [push, get?, size]

/-- Entries stay where they are. -/
theorem get?_add_of_some {pool : Pool} {index : Nat} {entry : Constant}
    (h : pool.get? index = some entry) (constant : Constant) :
    (pool.add constant).2.get? index = some entry := by
  unfold add
  split
  · exact h
  · obtain ⟨hlt, _⟩ := Array.getElem?_eq_some_iff.mp h
    rw [get?, push, Array.getElem?_push_lt hlt]
    exact (Array.getElem?_eq_getElem hlt).symm.trans h

def addAll (pool : Pool) (constants : List Constant) : Pool :=
  constants.foldl (fun pool constant => (pool.add constant).2) pool

end Pool

end StackLowering
