import StackLowering.Proofs.SwitchFallthrough
import StackLowering.Proofs.TextSwitch
/-!
Which switches are accepted. A switch over ints or enum constants has at most one
default, every value stands for a key and no two for the same one. A switch over
texts or objects is checked when its arms have been collected into groups, and by
then the values of empty arms in front of the default are gone. So these values are
not checked at all. One that occurs again in another arm selects that arm, although
it was dropped because it reaches the default anyway.
-/

namespace StackLowering

namespace Switch

/-- What the value of an arm stands for. -/
inductive ArmKey where
  | int (value : Int)
  /-- Position of an enum constant. -/
  | ordinal (position : Nat)
  | literal (value : Literal)
deriving DecidableEq

/-- The integer of a literal that fits 32 bits. -/
def intKey? : Tree → Option ArmKey
  | .literal (.byte value) => some (.int value.toInt)
  | .literal (.short value) => some (.int value.toInt)
  | .literal (.char value) => some (.int value.toNat)
  | .literal (.int value) => some (.int value.toInt)
  | .literal (.long value) =>
    if -2 ^ 31 ≤ value.toInt ∧ value.toInt < 2 ^ 31 then some (.int value.toInt) else none
  | _ => none

/-- The position of a constant of a known enum, in code of the type `current`. -/
def enumKey? (nest : Nest) (current : Ty) : Tree → Option ArmKey
  | .enumConstant ty name =>
    (nest.resolve current ty).toOption.bind fun resolved =>
      (nest.ordinal? resolved name).map .ordinal
  | _ => none

/-- The value of a literal that is neither null nor a class. -/
def literalKey? : Tree → Option ArmKey
  | .literal .null | .literal (.classOf _) => none
  | .literal value => some (.literal value.canonical)
  | _ => none

def keyOf? (nest : Nest) (current : Ty) : SwitchKind → Tree → Option ArmKey
  | .int => intKey?
  | .enum => enumKey? nest current
  | .text | .object => literalKey?

def values (arms : List Arm) : List Tree := arms.filterMap ArmOf.value

/-- At most one arm is a default, and the values of the others stand for different
keys. -/
structure WellFormed (key? : Tree → Option ArmKey) (arms : List Arm) : Prop where
  default : arms.countP ArmOf.isDefault ≤ 1
  resolvable : ∀ value ∈ values arms, (key? value).isSome = true
  distinct : ((values arms).filterMap key?).Nodup

section Ints

/-- The key that is dispatched on is the integer of the literal. -/
theorem intKey?_eq (value : Tree) :
    intKey? value = (armKey value).toOption.map fun key => .int key.toInt := by
  cases value with
  | literal literal =>
    cases literal with
    | short v => simp [armKey, intKey?, Except.toOption]
    | byte v => simp [armKey, intKey?, Except.toOption]
    | char v =>
      have hlt := v.toNat_lt
      simp [armKey, intKey?, Except.toOption, Int32.toInt_ofNat_of_lt (n := v.toNat) (by omega)]
    | long v =>
      rw [armKey, intKey?]
      by_cases hrange : -2147483648 ≤ v.toInt ∧ v.toInt ≤ 2147483647
      · have hofInt : (Int32.ofInt v.toInt).toInt = v.toInt :=
          Int32.toInt_ofInt_of_le hrange.1 (by omega)
        rw [if_pos hrange, if_pos (by omega)]
        exact congrArg (some ∘ ArmKey.int) hofInt.symm
      · rw [if_neg hrange, if_neg (by omega)]
        rfl
    | _ => rfl
  | _ => rfl

variable {switch : Tree} {found otherwise : Option Tree} {arms : List Arm} {keyed : List KeyedArm}

theorem defaults_of_splitArms (h : splitArms switch found arms = .ok (keyed, otherwise)) :
    found.toList.length + arms.countP ArmOf.isDefault ≤ 1 := by
  induction arms generalizing found keyed with
  | nil => cases found <;> simp
  | cons arm rest ih =>
    obtain ⟨_ | value, body⟩ := arm
    · rw [splitArms] at h
      split_ifs at h with hfound
      rw [List.countP_cons_of_pos rfl, Option.not_isSome_iff_eq_none.mp hfound]
      have hrest := ih h
      simpa [Nat.add_comm] using hrest
    · rw [splitArms] at h
      obtain ⟨key, _, h⟩ := bind_eq_ok.mp h
      obtain ⟨⟨inner, found'⟩, hsplit, h⟩ := bind_eq_ok.mp h
      obtain ⟨rfl, rfl⟩ := Prod.mk.inj (Except.ok.inj h)
      rw [List.countP_cons_of_neg (by simp [ArmOf.isDefault])]
      exact ih hsplit

theorem keys_of_splitArms (h : splitArms switch found arms = .ok (keyed, otherwise)) :
    (∀ value ∈ values arms, (intKey? value).isSome = true) ∧
      keyed.map (fun arm => ArmKey.int arm.key.toInt) = (values arms).filterMap intKey? := by
  induction arms generalizing found keyed with
  | nil =>
    obtain ⟨rfl, rfl⟩ := Prod.mk.inj (Except.ok.inj h)
    exact ⟨List.forall_mem_nil _, rfl⟩
  | cons arm rest ih =>
    obtain ⟨_ | value, body⟩ := arm
    · rw [splitArms] at h
      split_ifs at h
      exact ih h
    · rw [splitArms] at h
      obtain ⟨key, hkey, h⟩ := bind_eq_ok.mp h
      obtain ⟨⟨inner, found'⟩, hsplit, h⟩ := bind_eq_ok.mp h
      obtain ⟨rfl, rfl⟩ := Prod.mk.inj (Except.ok.inj h)
      obtain ⟨hresolvable, hkeys⟩ := ih hsplit
      have hfirst : intKey? value = some (.int key.toInt) := by
        rw [intKey?_eq, hkey]
        rfl
      have hvalues : values (⟨some value, body⟩ :: rest) = value :: values rest := rfl
      rw [hvalues, List.filterMap_cons, hfirst, List.map_cons, hkeys]
      exact ⟨List.forall_mem_cons.mpr ⟨by rw [hfirst]; rfl, hresolvable⟩, rfl⟩

/-- Sorted arms repeat a key next to each other if they repeat one at all. -/
theorem nodup_of_repeatedArm? {arms : List KeyedArm}
    (h : repeatedArm? (sortBy (fun a b => decide (a.key.toInt ≤ b.key.toInt)) arms) = none) :
    (arms.map fun arm => ArmKey.int arm.key.toInt).Nodup := by
  have hperm : (sortBy (fun a b => decide (a.key.toInt ≤ b.key.toInt)) arms).Perm arms := by
    rw [sortBy_eq_insertionSort]
    exact List.perm_insertionSort _ arms
  have hchain := isChain_of_repeatedArm? (pairwise_sortBy_key arms) h
  rw [← (hperm.map _).nodup_iff, List.Nodup, List.pairwise_map]
  refine (List.isChain_iff_pairwise.mp hchain).imp fun hlt heq => ?_
  exact absurd (ArmKey.int.inj heq) (Int.ne_of_lt hlt)

/-- A switch over ints that passes its checks is well formed. -/
theorem wellFormed_of_collectArms {collected : List (Int32 × Tree) × Option Tree}
    (h : collectArms switch arms = .ok collected) : WellFormed intKey? arms := by
  obtain ⟨⟨keyed, otherwise⟩, hsplit, h⟩ := bind_eq_ok.mp h
  obtain ⟨hresolvable, hkeys⟩ := keys_of_splitArms hsplit
  refine ⟨by simpa using defaults_of_splitArms hsplit, hresolvable, ?_⟩
  rw [← hkeys]
  dsimp only at h
  split at h
  · cases h
  · exact nodup_of_repeatedArm? (by assumption)

end Ints

section Groups

/-- The arms begin with empty ones and then a default. -/
def meetsDefault : List Arm → Bool
  | [] => false
  | ⟨none, _⟩ :: _ => true
  | ⟨some _, body⟩ :: rest => body.isEmpty && meetsDefault rest

/-- The arms without the empty ones in front of a default. -/
def kept : List Arm → List Arm
  | [] => []
  | arm :: rest =>
    if arm.value.isSome && meetsDefault (arm :: rest) then kept rest else arm :: kept rest

variable {pending : List Tree} {arms : List Arm}

theorem groupArms_of_meetsDefault (h : meetsDefault arms = true) (pending : List Tree) :
    groupArms pending arms = groupArms [] arms := by
  fun_induction meetsDefault arms generalizing pending with
  | case1 => cases h
  | case2 body rest => rfl
  | case3 value body rest ih =>
    obtain ⟨hempty, hrest⟩ := Bool.and_eq_true_iff.mp h
    rw [groupArms, groupArms, if_pos hempty, if_pos hempty, ih hrest, ih hrest ([] ++ [value])]

theorem groupArms_kept (pending : List Tree) (arms : List Arm) :
    groupArms pending (kept arms) = groupArms pending arms := by
  induction arms generalizing pending with
  | nil => rfl
  | cons arm rest ih =>
    obtain ⟨_ | value, body⟩ := arm
    · rw [kept, if_neg (by simp), groupArms, groupArms, ih]
    · rw [kept, meetsDefault]
      cases hempty : body.isEmpty with
      | false => simp [groupArms, hempty, ih]
      | true =>
        cases hmeets : meetsDefault rest with
        | false => simp [groupArms, hempty, ih]
        | true =>
          rw [groupArms, if_pos hempty, groupArms_of_meetsDefault hmeets]
          simp [ih, groupArms_of_meetsDefault hmeets pending]

theorem values_groupArms (pending : List Tree) (arms : List Arm) :
    (groupArms pending arms).1.flatMap Group.values =
      (if meetsDefault arms then [] else pending) ++ values (kept arms) := by
  induction arms generalizing pending with
  | nil =>
    cases pending with
    | nil => rfl
    | cons value rest => simp [groupArms, meetsDefault, kept, values]
  | cons arm rest ih =>
    obtain ⟨_ | value, body⟩ := arm
    · simpa [groupArms, meetsDefault, kept, values] using ih []
    · cases hempty : body.isEmpty with
      | false => simp [groupArms, meetsDefault, kept, values, hempty, ih]
      | true =>
        cases hmeets : meetsDefault rest with
        | false => simp [groupArms, meetsDefault, kept, values, hempty, hmeets, ih]
        | true => simp [groupArms, meetsDefault, kept, values, hempty, hmeets, ih]

theorem length_defaults (pending : List Tree) (arms : List Arm) :
    (groupArms pending arms).2.length = arms.countP ArmOf.isDefault := by
  induction arms generalizing pending with
  | nil => rfl
  | cons arm rest ih =>
    obtain ⟨_ | value, body⟩ := arm
    · rw [List.countP_cons_of_pos rfl, ← ih []]
      rfl
    · rw [List.countP_cons_of_neg (by simp [ArmOf.isDefault]), groupArms]
      split_ifs
      · exact ih _
      · exact ih []

theorem countP_kept (arms : List Arm) :
    (kept arms).countP ArmOf.isDefault = arms.countP ArmOf.isDefault := by
  rw [← length_defaults [], ← length_defaults [], groupArms_kept]

theorem meetsDefault_append_cons {value body : Tree} {rest : List Arm}
    (hbody : body.isEmpty = true) (first : List Arm) :
    meetsDefault (first ++ ⟨some value, body⟩ :: rest) = meetsDefault (first ++ rest) := by
  induction first with
  | nil => simp [meetsDefault, hbody]
  | cons arm first ih =>
    obtain ⟨_ | other, otherBody⟩ := arm
    · rfl
    · rw [List.cons_append, List.cons_append, meetsDefault, meetsDefault, ih]

theorem kept_append_cons {value body : Tree} {rest : List Arm} (hbody : body.isEmpty = true)
    (hrest : meetsDefault rest = true) (first : List Arm) :
    kept (first ++ ⟨some value, body⟩ :: rest) = kept (first ++ rest) := by
  induction first with
  | nil => simp [kept, meetsDefault, hbody, hrest]
  | cons arm first ih =>
    have hmeets := @meetsDefault_append_cons value body rest hbody (arm :: first)
    rw [List.cons_append, List.cons_append] at hmeets
    rw [List.cons_append, List.cons_append, kept, kept, ih, hmeets]

end Groups

section Literals

def literalKeys (seen : List Literal) : List ArmKey :=
  seen.map fun literal => .literal literal.canonical

theorem literalKey?_literal (literal : Literal) :
    literalKey? (.literal literal) = literal.hash?.map fun _ => .literal literal.canonical := by
  cases literal <;> rfl

theorem any_sameValue (literal : Literal) (seen : List Literal) :
    seen.any literal.sameValue = true ↔ .literal literal.canonical ∈ literalKeys seen := by
  simp only [literalKeys, List.any_eq_true, List.mem_map, Literal.sameValue, beq_iff_eq,
    ArmKey.literal.injEq]
  exact exists_congr fun other => and_congr_right' eq_comm

/-- The values stand for different literals, none of which was seen before. -/
structure Unseen (seen : List Literal) (values : List Tree) : Prop where
  resolvable : ∀ value ∈ values, (literalKey? value).isSome = true
  distinct : (values.filterMap literalKey? ++ literalKeys seen).Nodup

variable {seen seen' : List Literal} {vals : List Tree}

theorem literalKey?_eq_some {literal : Literal} {hash : Int32} (h : literal.hash? = some hash) :
    literalKey? (.literal literal) = some (.literal literal.canonical) := by
  rw [literalKey?_literal, h]
  rfl

theorem hashValues_unseen {hashed : List (Int32 × Tree)}
    (h : hashValues seen vals = .ok (hashed, seen')) (hseen : (literalKeys seen).Nodup) :
    (∀ value ∈ vals, (literalKey? value).isSome = true) ∧ (literalKeys seen').Nodup ∧
      (literalKeys seen').Perm (vals.filterMap literalKey? ++ literalKeys seen) := by
  induction vals generalizing seen hashed with
  | nil =>
    obtain ⟨_, rfl⟩ := Prod.mk.inj (Except.ok.inj h)
    exact ⟨List.forall_mem_nil _, hseen, .refl _⟩
  | cons value rest ih =>
    obtain ⟨literal, hash, hashed', rfl, hhash, hany, hrest, _⟩ := hashValues_cons_eq_ok.mp h
    have hkey := literalKey?_eq_some hhash
    have hnew : .literal literal.canonical ∉ literalKeys seen := by
      rw [← any_sameValue, hany]
      exact Bool.false_ne_true
    obtain ⟨hresolvable, hnodup, hperm⟩ := ih hrest (List.nodup_cons.mpr ⟨hnew, hseen⟩)
    rw [List.filterMap_cons, hkey]
    exact ⟨List.forall_mem_cons.mpr ⟨by rw [hkey]; rfl, hresolvable⟩, hnodup,
      hperm.trans List.perm_middle⟩

/-- Groups are only put into buckets if their values stand for different literals. -/
theorem unseen_of_bucketsOf {groups : List Group} {buckets result : List Bucket}
    (h : bucketsOf buckets seen groups = .ok result) (hseen : (literalKeys seen).Nodup) :
    Unseen seen (groups.flatMap Group.values) := by
  induction groups generalizing seen buckets with
  | nil => exact ⟨List.forall_mem_nil _, hseen⟩
  | cons group rest ih =>
    obtain ⟨⟨hashed, seen'⟩, hhashed, h⟩ := bind_eq_ok.mp h
    obtain ⟨hresolvable, hnodup, hperm⟩ := hashValues_unseen hhashed hseen
    obtain ⟨hothers, hdistinct⟩ := ih h hnodup
    rw [List.flatMap_cons]
    refine ⟨List.forall_mem_append.mpr ⟨hresolvable, hothers⟩, ?_⟩
    have hall := (hperm.append_left _).nodup_iff.mp hdistinct
    rw [← List.append_assoc] at hall
    rw [List.filterMap_append]
    exact (List.perm_append_comm.append_right _).nodup_iff.mp hall

/-- A switch over texts or objects is only expressed over hashes if the values it keeps
stand for different literals. -/
theorem unseen_of_hashed {kind : SwitchKind} {label : Option String} {subject tree : Tree}
    {arms : List Arm} {ty : Ty} {name : String}
    (h : hashed kind label subject arms ty name = .ok tree) :
    Unseen [] (values (kept arms)) := by
  have hvalues : (groupArms [] arms).1.flatMap Group.values = values (kept arms) := by
    rw [values_groupArms, ite_self, List.nil_append]
  obtain ⟨buckets, hbuckets, _⟩ := bind_eq_ok.mp h
  rw [← hvalues]
  exact unseen_of_bucketsOf hbuckets List.nodup_nil

theorem hashed_kept (kind : SwitchKind) (label : Option String) (subject : Tree)
    (arms : List Arm) (ty : Ty) (name : String) :
    hashed kind label subject (kept arms) ty name = hashed kind label subject arms ty name := by
  rw [hashed, groupArms_kept]
  rfl

end Literals

/-- The arms that are checked. -/
def checked (kind : SwitchKind) (arms : List Arm) : List Arm :=
  match kind with
  | .int | .enum => arms
  | .text | .object => kept arms

section Lowered

variable {env : Env} {s s' : State} {label : Option String} {kind : SwitchKind} {subject : Tree}
  {arms ordinals : List Arm}

theorem wellFormed_of_lowers_int (h : Lowers env (.tree (.switch label .int subject arms)) s s') :
    WellFormed intKey? arms := by
  cases h with
  | operation hoperation _ => cases hoperation with | access haccess _ => cases haccess
  | bridged haccess _ _ => cases haccess
  | rewritten hrewrites _ => cases hrewrites with | hashed hkind _ _ => simp at hkind
  | leave hleaves _ => cases hleaves
  | intSwitch hkey hkeyed _ _ _ _ _ _ => exact wellFormed_of_collectArms hkeyed

/-- The key that is dispatched on for a constant. -/
def ArmKey.wrapped : ArmKey → ArmKey
  | .ordinal position => .int (Int32.ofNat position).toInt
  | key => key

/-- A constant is known, and it is dispatched on by its position. -/
theorem key_of_ordinalArm {arm ordinal : Arm} (h : OrdinalArm env s arm ordinal) :
    arm.isDefault = ordinal.isDefault ∧
      (∀ value ∈ arm.value, (enumKey? env.nest s.currentType value).isSome = true) ∧
      ordinal.value.bind intKey? =
        (arm.value.bind (enumKey? env.nest s.currentType)).map ArmKey.wrapped := by
  cases h with
  | otherwise =>
    refine ⟨rfl, fun value hvalue => ?_, rfl⟩
    cases hvalue
  | constant hty hordinal =>
    rename_i ty ty' name body position
    have hkey : enumKey? env.nest s.currentType (.enumConstant ty name) =
        some (.ordinal position) := by
      rw [enumKey?, show env.nest.resolve s.currentType ty = .ok ty' from hty, Except.toOption,
        Option.bind_some, hordinal]
      rfl
    refine ⟨rfl, fun value hvalue => ?_, ?_⟩
    · obtain rfl := Option.some.inj hvalue
      rw [hkey]
      rfl
    · rw [Option.bind_some, hkey]
      rfl

/-- Constants that are dispatched on by different keys have different positions. -/
theorem WellFormed.of_ordinals (harms : List.Forall₂ (OrdinalArm env s) arms ordinals)
    (h : WellFormed intKey? ordinals) : WellFormed (enumKey? env.nest s.currentType) arms := by
  have hcount : arms.countP ArmOf.isDefault = ordinals.countP ArmOf.isDefault := by
    clear h
    induction harms with
    | nil => rfl
    | cons harm _ ih => rw [List.countP_cons, List.countP_cons, ih, (key_of_ordinalArm harm).1]
  have hresolvable : ∀ arm ∈ arms, ∀ value ∈ arm.value,
      (enumKey? env.nest s.currentType value).isSome = true := by
    clear h hcount
    induction harms with
    | nil => exact List.forall_mem_nil _
    | cons harm _ ih => exact List.forall_mem_cons.mpr ⟨(key_of_ordinalArm harm).2.1, ih⟩
  have hkeys : (values ordinals).filterMap intKey? =
      ((values arms).filterMap (enumKey? env.nest s.currentType)).map ArmKey.wrapped := by
    rw [values, values, List.filterMap_filterMap, List.filterMap_filterMap, List.map_filterMap]
    clear h hcount hresolvable
    induction harms with
    | nil => rfl
    | cons harm _ ih =>
      rw [List.filterMap_cons, List.filterMap_cons, (key_of_ordinalArm harm).2.2, ih]
  refine ⟨hcount.trans_le h.default, fun value hvalue => ?_, ?_⟩
  · obtain ⟨arm, harm, hvalue⟩ := List.mem_filterMap.mp hvalue
    exact hresolvable arm harm value hvalue
  · have hdistinct := h.distinct
    rw [hkeys] at hdistinct
    exact hdistinct.of_map _

/-- Behind a switch over texts or objects, the switch over hashes has its defaults. -/
theorem wellFormed_of_lowers_hashed {ty : Ty} {name : String} {tree : Tree}
    (htree : hashed kind label subject arms ty name = .ok tree)
    (h : Lowers env (.tree tree) s s') : WellFormed literalKey? (kept arms) := by
  obtain ⟨hresolvable, hdistinct⟩ := unseen_of_hashed htree
  refine ⟨?_, hresolvable, by simpa [literalKeys] using hdistinct⟩
  obtain ⟨buckets, _, htree⟩ := bind_eq_ok.mp htree
  obtain rfl := Except.ok.inj htree
  cases h with
  | operation hoperation _ => cases hoperation with | access haccess _ => cases haccess
  | bridged haccess _ _ => cases haccess
  | rewritten hrewrites _ => cases hrewrites
  | leave hleaves _ => cases hleaves
  | block htrees =>
    cases htrees with
    | cons _ hrest =>
      cases hrest with
      | cons hswitch _ =>
        have hdefault := (wellFormed_of_lowers_int hswitch).default
        have hotherwise : ((groupArms [] arms).2.map Arm.otherwise).countP ArmOf.isDefault =
            (groupArms [] arms).2.length := by
          rw [List.countP_map, List.countP_eq_length]
          exact fun _ _ => rfl
        rw [List.countP_append, hotherwise] at hdefault
        rw [countP_kept, ← length_defaults []]
        omega

/-- A switch that is lowered is well formed in the arms that are checked. -/
theorem wellFormed_of_lowers (h : Lowers env (.tree (.switch label kind subject arms)) s s') :
    WellFormed (keyOf? env.nest s.currentType kind) (checked kind arms) := by
  cases h with
  | operation hoperation _ => cases hoperation with | access haccess _ => cases haccess
  | bridged haccess _ _ => cases haccess
  | rewritten hrewrites hrewritten =>
    cases hrewrites with
    | hashed hkind hty htree =>
      have hkept := wellFormed_of_lowers_hashed htree hrewritten
      rcases hkind with rfl | rfl
      · exact hkept
      · exact hkept
  | leave hleaves _ => cases hleaves
  | enumSwitch harms hswitch => exact (wellFormed_of_lowers_int hswitch).of_ordinals harms
  | intSwitch hkey hkeyed _ _ _ _ _ _ => exact wellFormed_of_collectArms hkeyed

theorem wellFormed_of_run {depth : Nat}
    (h : Lower.Runs (Handlers.standard.run depth (.switch label kind subject arms)) env s () s') :
    WellFormed (keyOf? env.nest s.currentType kind) (checked kind arms) :=
  wellFormed_of_lowers (Derives.run env depth h)

/-- An empty arm in front of the default plays no part in a switch over texts or
objects, whatever its value. -/
theorem switch_unchecked {recur : Recur} {value body : Tree} {rest : List Arm}
    (hkind : kind = .text ∨ kind = .object) (hbody : body.isEmpty = true)
    (hrest : meetsDefault rest = true) (first : List Arm) :
    Lowering.switch recur label kind subject (first ++ ⟨some value, body⟩ :: rest) =
      Lowering.switch recur label kind subject (first ++ rest) := by
  have hhashed : Lowering.hashedSwitch recur label kind subject
      (first ++ ⟨some value, body⟩ :: rest) =
        Lowering.hashedSwitch recur label kind subject (first ++ rest) := by
    unfold Lowering.hashedSwitch
    simp only [← hashed_kept _ _ _ (first ++ _), kept_append_cons hbody hrest]
  rcases hkind with rfl | rfl
  · exact hhashed
  · exact hhashed

end Lowered

/-- The text of the empty arm in front of the default occurs again behind it. -/
def repeatedText : List TextArm :=
  [⟨some "a", .nothing⟩, ⟨none, .block [logInt 90, .breakTo none]⟩,
    ⟨some "a", .block [logInt 1, .breakTo none]⟩]

def repeatedDecl : RoutineDecl where
  owner := .object "demo.Main"
  name := "run"
  params := [⟨"s", Ty.text⟩]
  result := .void
  isStatic := true
  body := .switch none .text (.readLocal "s" Ty.text) (repeatedText.map TextArm.arm)

/-- In the order of the source the text selects the default. The switch is accepted
and goes to the body behind it. -/
theorem repeatedText_accepted :
    ¬ WellFormed literalKey? (repeatedText.map TextArm.arm) ∧
    (Lowering.routine Handlers.standard.process repeatedDecl ⟨.empty, {}⟩ .empty).1.isOk = true ∧
    select "a" repeatedText = .default ∧
    ∃ hashArms keyed defaultBody,
      hashed .text none (.readLocal "s" Ty.text) (repeatedText.map TextArm.arm) Ty.text
          "$subject0" =
        .ok (.block [.declareLocal "$subject0" Ty.text (some (.readLocal "s" Ty.text)),
          .switch none .int (hashCodeCall (.readLocal "$subject0" Ty.text)) hashArms]) ∧
      collectArms (.switch none .int (hashCodeCall (.readLocal "$subject0" Ty.text)) hashArms)
        hashArms = .ok (keyed, defaultBody) ∧
      (recording "a").dispatch (hashCodeCall (.readLocal "$subject0" Ty.text)) keyed [] =
        .outside [logInt 1] := by
  refine ⟨fun h => ?_, by decide +kernel, rfl, _, _, _, rfl, rfl, rfl⟩
  exact absurd h.distinct (by decide)

end Switch

end StackLowering
