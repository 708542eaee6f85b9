import StackLowering.Proofs.Inversion
/-!
Conversions. Every instruction of a conversion takes a value in one representation
and leaves one in another, and together they lead from the representation of the
source to that of the target. Only a primitive that becomes an object of the root
type stays what it is. Between integers, the target gets the one of its numbers that
is congruent to the source.
-/

namespace StackLowering

/-- The representations that an instruction converts between. -/
def Opcode.converts? : Opcode → Option (Category × Category)
  | i32ToI64 => some (.i32, .i64)
  | i32ToF32 => some (.i32, .f32)
  | i32ToF64 => some (.i32, .f64)
  | i64ToI32 => some (.i64, .i32)
  | i64ToF32 => some (.i64, .f32)
  | i64ToF64 => some (.i64, .f64)
  | f32ToI32 => some (.f32, .i32)
  | f32ToI64 => some (.f32, .i64)
  | f32ToF64 => some (.f32, .f64)
  | f64ToI32 => some (.f64, .i32)
  | f64ToI64 => some (.f64, .i64)
  | f64ToF32 => some (.f64, .f32)
  | i32ToI8 | i32ToI16 | i32ToU16 => some (.i32, .i32)
  | _ => none

/-- The calls take a value of the first representation and leave one of the second.
A checked cast leaves a value of the type that it names. -/
inductive Converts : Category → List Call → Category → Prop
  | done {category : Category} : Converts category [] category
  | number {op : Opcode} {source next target : Category} {calls : List Call}
      (hop : op.converts? = some (source, next)) (hrest : Converts next calls target) :
      Converts source (.op op :: calls) target
  | cast {source : Category} {ty : Ty} : Converts source [.digest .cast ty.digest] ty.category

theorem Converts.eq_of_nil {source target : Category} (h : Converts source [] target) :
    source = target := by
  cases h
  rfl

theorem Converts.append {source next target : Category} {first : List Opcode} {calls : List Call}
    (hfirst : Converts source (first.map .op) next) (hcalls : Converts next calls target) :
    Converts source (first.map .op ++ calls) target := by
  induction first generalizing source with
  | nil =>
    cases hfirst
    exact hcalls
  | cons op first ih =>
    cases hfirst with
    | number hop hrest => exact .number hop (ih hrest)

/-- Values are converted from the one type to the other: neither is void, and a boolean
only becomes or comes from a reference. -/
structure Ty.Convertible (source target : Ty) : Prop where
  value : source.isVoid = false
  result : target.isVoid = false
  ofBool : source = Ty.bool → target = Ty.bool ∨ target.isReference = true
  toBool : target = Ty.bool → source = Ty.bool ∨ source.isReference = true

section Numbers

variable {source target : Prim}

theorem converts_convert? : Converts (Ty.prim source).category
    ((Category.convert? (Ty.prim source).category (Ty.prim target).category).toList.map .op)
      (Ty.prim target).category := by
  cases source <;> cases target <;> first | exact .done | exact .number rfl .done

theorem converts_narrow? : Converts (Ty.prim target).category
    ((Prim.narrow? source target).toList.map .op) (Ty.prim target).category := by
  cases source <;> cases target <;> first | exact .done | exact .number rfl .done

theorem converts_conversion (h : (Ty.prim source).Convertible (.prim target)) :
    Converts (Ty.prim source).category ((source.conversion target).map .op)
      (Ty.prim target).category := by
  unfold Prim.conversion
  split_ifs with hnone
  · rcases hnone with rfl | rfl | rfl
    · rcases h.ofBool rfl with heq | href
      · rw [heq]
        exact .done
      · cases href
    · rcases h.toBool rfl with heq | href
      · rw [heq]
        exact .done
      · cases href
    · cases h.value
  · rw [List.map_append]
    exact converts_convert?.append converts_narrow?

end Numbers

section Types

variable {source target : Ty}

/-- A conversion leaves the representation of its target, unless a primitive is to
become an object of the root type. -/
theorem converts_conversionCalls (h : source.Convertible target)
    (hboxed : source.isReference = true ∨ target ≠ Ty.root) :
    Converts source.category (conversionCalls source target) target.category := by
  unfold conversionCalls
  by_cases hnone : source = target ∨ target.isVoid = true
  · rw [if_pos hnone]
    rcases hnone with rfl | hvoid
    · exact .done
    · rw [h.result] at hvoid
      cases hvoid
  · rw [if_neg hnone]
    split
    · exact converts_conversion h
    · split_ifs with hroot
      · subst hroot
        have href : source.isReference = true := hboxed.resolve_right (absurd rfl)
        cases source with
        | prim => cases href
        | _ => exact .done
      · exact .cast

/-- Types of different representations are converted by at least one instruction,
except where a primitive is to become an object of the root type: that takes none. -/
theorem conversionCalls_eq_nil_iff (h : source.Convertible target)
    (hdiffer : source.category ≠ target.category) :
    conversionCalls source target = [] ↔ source.isReference = false ∧ target = Ty.root := by
  constructor
  · intro hnil
    by_contra hboxed
    rw [not_and_or, Bool.not_eq_false] at hboxed
    have hconverts := converts_conversionCalls h hboxed
    rw [hnil] at hconverts
    exact hdiffer hconverts.eq_of_nil
  · rintro ⟨href, rfl⟩
    cases source with
    | prim => rfl
    | _ => cases href

end Types

/-- An integer as the machine holds it. -/
inductive Word where
  | i32 (value : Int32)
  | i64 (value : Int64)

/-- What a conversion between integers makes of a word. -/
def Opcode.converted? : Opcode → Word → Option Word
  | i32ToI64, .i32 value => some (.i64 value.toInt64)
  | i64ToI32, .i64 value => some (.i32 value.toInt32)
  | i32ToI8, .i32 value => some (.i32 value.toInt8.toInt32)
  | i32ToI16, .i32 value => some (.i32 value.toInt16.toInt32)
  | i32ToU16, .i32 value => some (.i32 value.toUInt32.toUInt16.toUInt32.toInt32)
  | _, _ => none

/-- What the instructions of a conversion make of a word. -/
def convertAll? (ops : List Opcode) (word : Word) : Option Word :=
  ops.foldlM (fun word op => op.converted? word) word

/-- An integer type, the number of its bits and the least of its values. -/
inductive Prim.Integer : Prim → Nat → Int → Prop
  | byte : Integer .byte 8 (-2 ^ 7)
  | char : Integer .char 16 0
  | short : Integer .short 16 (-2 ^ 15)
  | int : Integer .int 32 (-2 ^ 31)
  | long : Integer .long 64 (-2 ^ 63)

/-- How the machine holds a number of an integer type. -/
def Prim.word : Prim → Int → Word
  | long, number => .i64 (.ofInt number)
  | _, number => .i32 (.ofInt number)

/-- The number that is congruent to a given one, among the `2 ^ bits` from `low` on. -/
def wrapped (bits : Nat) (low number : Int) : Int := low + (number - low) % 2 ^ bits

section Words

variable {number : Int} {value : Int32} (hvalue : value = .ofInt number)
include hvalue

theorem int32_wrapped : value = .ofInt (wrapped 32 (-2 ^ 31) number) := by
  rw [hvalue, ← Int32.toInt_inj, Int32.toInt_ofInt, Int32.toInt_ofInt, Int.bmod_def, Int.bmod_def]
  simp only [Int32.size, wrapped]
  omega

theorem int8_wrapped : value.toInt8.toInt32 = .ofInt (wrapped 8 (-2 ^ 7) number) := by
  rw [hvalue, Int32.toInt8_ofInt, ← Int32.toInt_inj, Int8.toInt_toInt32, Int8.toInt_ofInt,
    Int32.toInt_ofInt, Int.bmod_def, Int.bmod_def]
  simp only [Int8.size, Int32.size, wrapped]
  omega

theorem int16_wrapped : value.toInt16.toInt32 = .ofInt (wrapped 16 (-2 ^ 15) number) := by
  rw [hvalue, Int32.toInt16_ofInt, ← Int32.toInt_inj, Int16.toInt_toInt32, Int16.toInt_ofInt,
    Int32.toInt_ofInt, Int.bmod_def, Int.bmod_def]
  simp only [Int16.size, Int32.size, wrapped]
  omega

theorem uint16_wrapped :
    value.toUInt32.toUInt16.toUInt32.toInt32 = .ofInt (wrapped 16 0 number) := by
  have hbits : value.toUInt32.toUInt16.toUInt32.toNat = (number % 2 ^ 32).toNat % 2 ^ 16 := by
    rw [hvalue, UInt16.toNat_toUInt32, UInt32.toNat_toUInt16]
    exact congrArg (· % 2 ^ 16) (BitVec.toNat_ofInt number)
  refine Int32.toBitVec.inj (BitVec.eq_of_toNat_eq (hbits.trans ?_))
  refine Eq.trans ?_ (BitVec.toNat_ofInt _).symm
  rw [wrapped]
  omega

theorem toInt64_ofInt (hlow : -2 ^ 31 ≤ number) (hhigh : number < 2 ^ 31) :
    value.toInt64 = .ofInt number := by
  rw [hvalue, ← Int64.toInt_inj, Int32.toInt_toInt64, Int32.toInt_ofInt, Int64.toInt_ofInt,
    Int.bmod_def, Int.bmod_def]
  simp only [Int32.size, Int64.size]
  omega

end Words

section Integers

variable {source target : Prim} {bits width : Nat} {first low number : Int}
  (hsource : source.Integer bits first) (htarget : target.Integer width low)
  (hfirst : first ≤ number) (hlast : number < first + 2 ^ bits)
include hsource htarget hfirst hlast

/-- The instructions between two integer types wrap a number around to the target. -/
theorem convertAll?_conversion :
    convertAll? (if source = target then [] else source.conversion target) (source.word number) =
      some (target.word (wrapped width low number)) := by
  have hkept (hlow : low ≤ number) (hhigh : number < low + 2 ^ width) :
      some (target.word number) = some (target.word (wrapped width low number)) := by
    rw [wrapped, Int.emod_eq_of_lt (by omega) (by omega), add_sub_cancel]
  cases htarget with
  | byte => cases hsource with
    | byte => exact hkept hfirst hlast
    | long => exact congrArg (some ∘ Word.i32) (int8_wrapped Int64.toInt32_ofInt)
    | _ => exact congrArg (some ∘ Word.i32) (int8_wrapped rfl)
  | char => cases hsource with
    | char => exact hkept hfirst hlast
    | long => exact congrArg (some ∘ Word.i32) (uint16_wrapped Int64.toInt32_ofInt)
    | _ => exact congrArg (some ∘ Word.i32) (uint16_wrapped rfl)
  | short => cases hsource with
    | byte | short => exact hkept (by omega) (by omega)
    | long => exact congrArg (some ∘ Word.i32) (int16_wrapped Int64.toInt32_ofInt)
    | _ => exact congrArg (some ∘ Word.i32) (int16_wrapped rfl)
  | int => cases hsource with
    | long => exact congrArg (some ∘ Word.i32) (int32_wrapped Int64.toInt32_ofInt)
    | _ => exact hkept (by omega) (by omega)
  | long =>
    refine Eq.trans ?_ (hkept ?_ ?_)
    · cases hsource with
      | long => rfl
      | _ => exact congrArg (some ∘ Word.i64) (toInt64_ofInt rfl (by omega) (by omega))
    all_goals cases hsource <;> omega

/-- Converting between integer types computes the one number of the target type that
is congruent to the given one modulo its width. -/
theorem convert_congruent : ∃ ops result,
    Lowering.convert (.prim source) (.prim target) = List.forM ops Lower.op ∧
      convertAll? ops (source.word number) = some (target.word result) ∧
      low ≤ result ∧ result < low + 2 ^ width ∧ result ≡ number [ZMOD 2 ^ width] ∧
      ∀ other, low ≤ other → other < low + 2 ^ width → other ≡ number [ZMOD 2 ^ width] →
        other = result := by
  have hwidth : (0 : Int) < 2 ^ width := by positivity
  have hmod := Int.emod_nonneg (number - low) hwidth.ne'
  have hlt := Int.emod_lt_of_pos (number - low) hwidth
  have hcongruent : wrapped width low number ≡ number [ZMOD 2 ^ width] := by
    have hadd := (Int.mod_modEq (number - low) (2 ^ width)).add_left low
    rwa [add_sub_cancel] at hadd
  refine ⟨_, _, ?_, convertAll?_conversion hsource htarget hfirst hlast, by rw [wrapped]; omega,
    by rw [wrapped]; omega, hcongruent, fun other hlow hhigh hother => ?_⟩
  · cases hsource <;> cases htarget <;> rfl
  · have hmodulo : (other - low) % 2 ^ width = (number - low) % 2 ^ width := hother.sub_right low
    rw [Int.emod_eq_of_lt (by omega) (by omega)] at hmodulo
    rw [wrapped]
    omega

end Integers

/-- The last character becomes a negative short. -/
theorem convert_congruent_lastChar :
    Prim.Integer .char 16 0 ∧ Prim.Integer .short 16 (-2 ^ 15) ∧ ∃ ops,
      Lowering.convert (.prim .char) (.prim .short) = List.forM ops Lower.op ∧
        convertAll? ops (Prim.char.word 65535) = some (Prim.short.word (-1)) := by
  obtain ⟨ops, result, hops, hrun, -, -, -, hunique⟩ :=
    convert_congruent .char .short (by decide : (0 : Int) ≤ 65535) (by decide)
  rw [← hunique (-1) (by decide) (by decide) (by decide)] at hrun
  exact ⟨.char, .short, ops, hops, hrun⟩

namespace Lowering

open Lower

variable {env : Env} {s s' : State}

/-- A cast that is lowered converts from the type of its operand to its own, and what
is discarded has the width of the latter. -/
theorem cast_converts {ty : Ty} {value : Tree}
    (h : Runs (Handlers.standard.process (.cast ty value)) env s () s') :
    ∃ (source target : Ty) (m : State), Resolves env s value.valueType source ∧
      Resolves env s ty target ∧ Lowers env (.value value) s m ∧
      s' = (m.emitsAll (conversionCalls source target)).discard target := by
  cases Derives.process env h with
  | operation hoperation hoperands =>
    cases hoperation with
    | access haccess => cases haccess
    | cast htarget hsource =>
      cases hoperands with
      | cons hvalue hnil =>
        cases hnil
        exact ⟨_, _, _, hsource, htarget, hvalue, rfl⟩
  | bridged hother | rewritten hother | leave hother => cases hother

/-- A long that is cast to the root type and not used. -/
def unboxedLong : RoutineDecl where
  owner := .object "demo.Main"
  name := "run"
  params := []
  result := .void
  isStatic := true
  body := .block [.cast Ty.root (.literal (.long 5)), .ret none]

/-- The long is left as it is. Of its two cells, one is discarded. -/
theorem unboxedLong_discarded :
    Ty.long.Convertible Ty.root ∧ Ty.long.category ≠ Ty.root.category ∧
      Ty.long.width = 2 ∧ Ty.root.width = 1 ∧
      (routine Handlers.standard.process unboxedLong ⟨.empty, {}⟩ .empty).1.toOption.map
          (·.1.code.chunk.instructions) =
        some [⟨0, .constant, .byte 0⟩, ⟨2, .pop, .none⟩, ⟨3, .returnVoid, .none⟩] :=
  ⟨⟨rfl, rfl, by decide, by decide⟩, by decide, rfl, rfl, by decide +kernel⟩

end Lowering

end StackLowering
