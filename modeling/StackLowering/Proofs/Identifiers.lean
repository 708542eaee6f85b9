import StackLowering.Decl
import Mathlib.Data.List.Basic
/-!
What identifies members and types. Digests of members tell apart members that differ
in one component, whatever names are hashed to. Descriptors can be read back: the
text of a type shows where it ends, so the text of a signature has one reading only.
-/

namespace StackLowering

namespace Digest

open XxHash64

/-- The digest of a field, with any function for the hash of its name. -/
def fieldWith (hash : String → UInt64) (owner : Digest) (name : String) : Digest :=
  ⟨fieldMarker ^^^ rotateLeft owner.bits 17 ^^^ hash name⟩

/-- The digest of a method, with any function for the hash of its name. -/
def methodWith (hash : String → UInt64) (owner : Digest) (name : String)
    (params : List Digest) : Digest :=
  ⟨mixParams (methodMarker ^^^ rotateLeft owner.bits 17 ^^^ hash name) 0 params⟩

/-- The separator is odd, so multiplication by it can be undone. -/
theorem mul_separator_inj {a b : UInt64} (h : a * separator = b * separator) : a = b := by
  have hinverse : separator * 0xd3f20f0a40208825 = 1 := by decide
  calc a = a * (separator * 0xd3f20f0a40208825) := by rw [hinverse, UInt64.mul_one]
    _ = b * (separator * 0xd3f20f0a40208825) := by rw [← UInt64.mul_assoc, h, UInt64.mul_assoc]
    _ = b := by rw [hinverse, UInt64.mul_one]

theorem bits_inj {digest digest' : Digest} : digest.bits = digest'.bits ↔ digest = digest' := by
  rw [← mk.injEq]

theorem mixParams_inj {acc acc' : UInt64} (position : Nat) (params : List Digest) :
    mixParams acc position params = mixParams acc' position params ↔ acc = acc' := by
  induction params generalizing acc acc' position with
  | nil => rfl
  | cons param rest ih =>
    rw [mixParams, mixParams, ih, UInt64.add_left_inj]
    exact ⟨mul_separator_inj, congrArg (· * separator)⟩

theorem mixParams_append (acc : UInt64) (position : Nat) (first rest : List Digest) :
    mixParams acc position (first ++ rest) =
      mixParams (mixParams acc position first) (position + first.length) rest := by
  induction first generalizing acc position with
  | nil => rfl
  | cons param first ih =>
    rw [List.cons_append, mixParams, ih, mixParams, List.length_cons]
    congr 1
    omega

/-- Of two lists that differ in one place, that place tells. -/
theorem mixParams_param_inj (acc : UInt64) (position : Nat) (before after : List Digest)
    (param param' : Digest) :
    mixParams acc position (before ++ param :: after) =
      mixParams acc position (before ++ param' :: after) ↔ param = param' := by
  rw [mixParams_append, mixParams_append, mixParams, mixParams, mixParams_inj, UInt64.add_right_inj,
    UInt64.xor_right_inj, bits_inj]

/-- The bit at `i` goes to `i + 17`, around the end of the word. -/
theorem getLsbD_rotateLeft (a : UInt64) {i : Nat} (h : i < 64) :
    (rotateLeft a 17).toBitVec.getLsbD ((i + 17) % 64) = a.toBitVec.getLsbD i := by
  change (a.toBitVec.rotateLeft 17).getLsbD _ = _
  rw [BitVec.getLsbD_rotateLeft]
  by_cases hwrap : i + 17 < 64
  · have hplace : (i + 17) % 64 = i + 17 := Nat.mod_eq_of_lt hwrap
    have hhigh : ¬ i + 17 < 17 := by omega
    simp [hplace, hwrap, hhigh]
  · have hplace : (i + 17) % 64 = i - 47 := by omega
    have hlow : i - 47 < 17 := by omega
    have hback : 47 + (i - 47) = i := by omega
    simp [hplace, hlow, hback]

theorem rotateLeft_inj {a b : UInt64} : rotateLeft a 17 = rotateLeft b 17 ↔ a = b := by
  refine ⟨fun h => UInt64.toBitVec_inj.mp (BitVec.eq_of_getLsbD_eq fun i hi => ?_),
    congrArg (rotateLeft · 17)⟩
  rw [← getLsbD_rotateLeft a hi, h, getLsbD_rotateLeft b hi]

theorem xor_rotateLeft_inj {marker hash : UInt64} {owner owner' : Digest} :
    marker ^^^ rotateLeft owner.bits 17 ^^^ hash = marker ^^^ rotateLeft owner'.bits 17 ^^^ hash ↔
      owner = owner' := by
  rw [UInt64.xor_left_inj, UInt64.xor_right_inj, rotateLeft_inj, bits_inj]

/-- Components that tell members apart: members that agree in all others have one
digest only if they agree in this one too. -/
structure Separates (hash : String → UInt64) : Prop where
  methodOwner : ∀ owner owner' name params,
    methodWith hash owner name params = methodWith hash owner' name params ↔ owner = owner'
  methodParam : ∀ owner name before param param' after,
    methodWith hash owner name (before ++ param :: after) =
      methodWith hash owner name (before ++ param' :: after) ↔ param = param'
  methodName : ∀ owner name name' params,
    methodWith hash owner name params = methodWith hash owner name' params ↔
      hash name = hash name'
  constructorOwner : ∀ owner owner' params,
    ofConstructor owner params = ofConstructor owner' params ↔ owner = owner'
  constructorParam : ∀ owner before param param' after,
    ofConstructor owner (before ++ param :: after) =
      ofConstructor owner (before ++ param' :: after) ↔ param = param'
  fieldOwner : ∀ owner owner' name,
    fieldWith hash owner name = fieldWith hash owner' name ↔ owner = owner'
  fieldName : ∀ owner name name',
    fieldWith hash owner name = fieldWith hash owner name' ↔ hash name = hash name'
  fieldMethod : ∀ owner name, fieldWith hash owner name ≠ methodWith hash owner name []

/-- Digests of members use the hash of names in one place, and whatever that hash is,
each component of a member shows in its digest. -/
theorem separates_members :
    ofField = fieldWith hashText ∧ ofMethod = methodWith hashText ∧ ∀ hash, Separates hash := by
  refine ⟨rfl, rfl, fun hash => ⟨?_, ?_, ?_, ?_, ?_, ?_, ?_, ?_⟩⟩ <;> intros
  · rw [methodWith, methodWith, mk.injEq, mixParams_inj, xor_rotateLeft_inj]
  · rw [methodWith, methodWith, mk.injEq, mixParams_param_inj]
  · rw [methodWith, methodWith, mk.injEq, mixParams_inj, UInt64.xor_right_inj]
  · rw [ofConstructor, ofConstructor, mk.injEq, mixParams_inj, UInt64.xor_right_inj, bits_inj]
  · rw [ofConstructor, ofConstructor, mk.injEq, mixParams_param_inj]
  · rw [fieldWith, fieldWith, mk.injEq, xor_rotateLeft_inj]
  · rw [fieldWith, fieldWith, mk.injEq, UInt64.xor_right_inj]
  · rw [fieldWith, methodWith, mixParams, ne_eq, mk.injEq, UInt64.xor_left_inj,
      UInt64.xor_left_inj]
    decide

end Digest

/-- The type is not named by a role, and the names of object types in it have
neither a slash nor a semicolon. -/
def Ty.Ordinary : Ty → Prop
  | prim _ => True
  | object name => '/' ∉ name.toList ∧ ';' ∉ name.toList
  | array element => element.Ordinary
  | symbolic _ => False

instance Ty.decidableOrdinary : DecidablePred Ty.Ordinary
  | prim _ => .isTrue trivial
  | object _ => inferInstanceAs (Decidable (_ ∧ _))
  | array element => element.decidableOrdinary
  | symbolic _ => .isFalse id

/-- Slashes for dots, as names are spelled in descriptors. -/
def slashed (c : Char) : Char := if c = '.' then '/' else c

theorem map_slashed_inj {name name' : List Char} (h : '/' ∉ name) (h' : '/' ∉ name')
    (heq : name.map slashed = name'.map slashed) : name = name' := by
  have hback (chars : List Char) (hchars : '/' ∉ chars) :
      (chars.map slashed).map (fun c => if c = '/' then '.' else c) = chars := by
    rw [List.map_map]
    refine (List.map_congr_left fun c hc => ?_).trans (List.map_id chars)
    have hne : c ≠ '/' := fun heq => hchars (heq ▸ hc)
    by_cases hdot : c = '.' <;> simp [slashed, hdot, hne]
  rw [← hback name h, heq, hback name' h']

theorem semicolon_notMem_map_slashed {name : List Char} (h : ';' ∉ name) :
    ';' ∉ name.map slashed := by
  intro hmem
  obtain ⟨c, hc, heq⟩ := List.mem_map.mp hmem
  unfold slashed at heq
  split_ifs at heq
  · simp at heq
  · exact h (heq ▸ hc)

namespace Ty

/-- A descriptor ends where it says: whatever follows two descriptors, they are
descriptors of one type if the texts agree. -/
theorem descriptorChars_append_inj {ty ty' : Ty} (h : ty.Ordinary) (h' : ty'.Ordinary)
    {rest rest' : List Char} (heq : ty.descriptorChars ++ rest = ty'.descriptorChars ++ rest') :
    ty = ty' ∧ rest = rest' := by
  induction ty generalizing ty' with
  | prim p =>
    cases ty' with
    | prim p' =>
      obtain ⟨hletter, hrest⟩ := List.cons.inj heq
      refine ⟨?_, hrest⟩
      cases p <;> cases p' <;> first | rfl | simp [Prim.descriptor] at hletter
    | object | array =>
      have hletter := (List.cons.inj heq).1
      cases p <;> simp [Prim.descriptor] at hletter
    | symbolic => exact h'.elim
  | object name =>
    cases ty' with
    | prim p =>
      have hletter := (List.cons.inj heq).1
      cases p <;> simp [Prim.descriptor] at hletter
    | object name' =>
      have htail := (List.cons.inj heq).2
      change name.toList.map slashed ++ [';'] ++ rest =
        name'.toList.map slashed ++ [';'] ++ rest' at htail
      rw [List.append_assoc, List.append_assoc] at htail
      have hend := congrArg (List.idxOf ';') htail
      rw [List.idxOf_append_of_notMem (semicolon_notMem_map_slashed h.2),
        List.idxOf_append_of_notMem (semicolon_notMem_map_slashed h'.2)] at hend
      obtain ⟨hname, hrest⟩ := List.append_inj htail (by simpa using hend)
      exact ⟨congrArg object (String.toList_inj.mp (map_slashed_inj h.1 h'.1 hname)),
        (List.cons.inj hrest).2⟩
    | array => simp [descriptorChars] at heq
    | symbolic => exact h'.elim
  | array element ih =>
    cases ty' with
    | prim p =>
      have hletter := (List.cons.inj heq).1
      cases p <;> simp [Prim.descriptor] at hletter
    | object => simp [descriptorChars] at heq
    | array element' =>
      have hordinary : element'.Ordinary := h'
      obtain ⟨rfl, hrest⟩ := ih h hordinary (List.cons.inj heq).2
      exact ⟨rfl, hrest⟩
    | symbolic => exact h'.elim
  | symbolic => exact h.elim

theorem ne_paren_of_descriptorChars (ty : Ty) (rest rest' : List Char) :
    ty.descriptorChars ++ rest ≠ ')' :: rest' := by
  cases ty with
  | prim p => cases p <;> simp [descriptorChars, Prim.descriptor]
  | _ => simp [descriptorChars]

theorem flatMap_descriptorChars_inj {types types' : List Ty} (h : ∀ ty ∈ types, ty.Ordinary)
    (h' : ∀ ty ∈ types', ty.Ordinary) {rest rest' : List Char}
    (heq : types.flatMap descriptorChars ++ ')' :: rest =
      types'.flatMap descriptorChars ++ ')' :: rest') : types = types' ∧ rest = rest' := by
  induction types generalizing types' with
  | nil =>
    cases types' with
    | nil => exact ⟨rfl, (List.cons.inj heq).2⟩
    | cons ty' types' =>
      rw [List.flatMap_cons, List.append_assoc] at heq
      exact absurd heq.symm (ne_paren_of_descriptorChars ty' _ _)
  | cons ty types ih =>
    obtain ⟨hty, htypes⟩ := List.forall_mem_cons.mp h
    rw [List.flatMap_cons, List.append_assoc] at heq
    cases types' with
    | nil => exact absurd heq (ne_paren_of_descriptorChars ty _ _)
    | cons ty' types' =>
      obtain ⟨hty', htypes'⟩ := List.forall_mem_cons.mp h'
      rw [List.flatMap_cons, List.append_assoc] at heq
      obtain ⟨rfl, htail⟩ := descriptorChars_append_inj hty hty' heq
      obtain ⟨rfl, hrest⟩ := ih htypes htypes' htail
      exact ⟨rfl, hrest⟩

end Ty

def Signature.Ordinary (signature : Signature) : Prop :=
  (∀ ty ∈ signature.params, ty.Ordinary) ∧ signature.result.Ordinary

instance Signature.decidableOrdinary : DecidablePred Signature.Ordinary := fun _ =>
  inferInstanceAs (Decidable (_ ∧ _))

theorem Signature.descriptor_inj {signature signature' : Signature} (h : signature.Ordinary)
    (h' : signature'.Ordinary) :
    signature.descriptor = signature'.descriptor ↔
      signature.params = signature'.params ∧ signature.result = signature'.result := by
  constructor
  · intro heq
    have hchars := (List.cons.inj (String.ofList_inj.mp heq)).2
    obtain ⟨hparams, hresult⟩ := Ty.flatMap_descriptorChars_inj h.1 h'.1 hchars
    rw [← List.append_nil signature.result.descriptorChars,
      ← List.append_nil signature'.result.descriptorChars] at hresult
    exact ⟨hparams, (Ty.descriptorChars_append_inj h.2 h'.2 hresult).1⟩
  · rintro ⟨hparams, hresult⟩
    rw [descriptor, descriptor, descriptorChars, descriptorChars, hparams, hresult]

/-- Descriptors can be read back: that of a type is no proper beginning of another one,
and that of a signature, or of a routine, stands for one list of parameter types and one
result type. -/
theorem descriptor_determines :
    (∀ ty ty' : Ty, ty.Ordinary → ty'.Ordinary →
      (ty.descriptor = ty'.descriptor ↔ ty = ty') ∧
        (ty.descriptor.toList <+: ty'.descriptor.toList → ty = ty')) ∧
      (∀ signature signature' : Signature, signature.Ordinary → signature'.Ordinary →
        (signature.descriptor = signature'.descriptor ↔
          signature.params = signature'.params ∧ signature.result = signature'.result)) ∧
      ∀ decl : RoutineDecl, ∀ signature : Signature, signature.Ordinary →
        (∀ param ∈ decl.params, param.ty.Ordinary) → decl.result.Ordinary →
        (decl.descriptor = signature.descriptor ↔
          decl.params.map Param.ty = signature.params ∧ decl.result = signature.result) := by
  refine ⟨fun ty ty' h h' => ?_, fun _ _ => Signature.descriptor_inj,
    fun decl signature h hparams hresult => ?_⟩
  · have hstarts (hstarts : ty.descriptor.toList <+: ty'.descriptor.toList) : ty = ty' := by
      obtain ⟨rest, hrest⟩ := hstarts
      simp only [Ty.descriptor, String.toList_ofList] at hrest
      rw [← List.append_nil ty'.descriptorChars] at hrest
      exact (Ty.descriptorChars_append_inj h h' hrest).1
    refine ⟨⟨fun heq => hstarts ?_, congrArg Ty.descriptor⟩, hstarts⟩
    exact heq ▸ List.prefix_rfl
  · refine Signature.descriptor_inj ⟨fun ty hty => ?_, hresult⟩ h
    obtain ⟨param, hparam, rfl⟩ := List.mem_map.mp hty
    exact hparams param hparam

/-- Names may hold the letters and brackets that descriptors are made of. -/
theorem descriptor_determines_brackets :
    let brackets := Ty.object "[L(I)"
    let first : Signature := ⟨"run", .void, [brackets, .array .int]⟩
    let second : Signature := ⟨"run", .void, [.array brackets, .int]⟩
    let params : List Param := [⟨"a", brackets⟩, ⟨"b", .array .int⟩]
    let decl : RoutineDecl := ⟨.root, "run", params, .void, true, .block []⟩
    brackets.Ordinary ∧ first.Ordinary ∧ second.Ordinary ∧
      ¬ brackets.descriptor.toList <+: (Ty.array brackets).descriptor.toList ∧
      first.descriptor ≠ second.descriptor ∧ decl.descriptor ≠ second.descriptor := by
  have hbrackets : (Ty.object "[L(I)").Ordinary := by decide
  obtain ⟨htypes, hsignatures, hroutines⟩ := descriptor_determines
  refine ⟨hbrackets, by decide, by decide, fun hbegins => ?_, fun heq => ?_, fun heq => ?_⟩
  · cases (htypes _ _ hbrackets (by decide)).2 hbegins
  · exact absurd ((hsignatures _ _ (by decide) (by decide)).mp heq).1 (by decide)
  · exact absurd ((hroutines _ _ (by decide) (by decide) (by decide)).mp heq).1 (by decide)

end StackLowering
