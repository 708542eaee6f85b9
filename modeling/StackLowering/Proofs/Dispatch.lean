import StackLowering.Proofs.Derivation
/-!
The tables of a switch. Keys are in strictly ascending order, so a dense table
has one entry for each key of its range. A sparse table is only chosen where it
is small enough for its size to be written.
-/

namespace StackLowering

theorem sortBy_eq_insertionSort {α : Type} (le : α → α → Bool) (items : List α) :
    sortBy le items = items.insertionSort (fun a b => le a b = true) := by
  have hinsert (item : α) (rest : List α) :
      insertBy le item rest = rest.orderedInsert (fun a b => le a b = true) item := by
    induction rest with
    | nil => rfl
    | cons first rest ih => rw [insertBy, ih, List.orderedInsert]
  induction items with
  | nil => rfl
  | cons item rest ih => rw [sortBy, ih, hinsert, List.insertionSort_cons]

namespace Switch

/-- The keys are in strictly ascending order. -/
def Ascending (arms : List (Int32 × Tree)) : Prop :=
  arms.IsChain fun arm next => arm.1.toInt < next.1.toInt

theorem isChain_of_repeatedArm? {arms : List KeyedArm}
    (hsorted : arms.Pairwise fun arm next => arm.key.toInt ≤ next.key.toInt)
    (h : repeatedArm? arms = none) :
    arms.IsChain fun arm next => arm.key.toInt < next.key.toInt := by
  induction arms with
  | nil => exact .nil
  | cons arm rest ih =>
    cases rest with
    | nil => exact .singleton arm
    | cons next rest =>
      rw [repeatedArm?] at h
      split_ifs at h with hkey
      have hle := (List.pairwise_cons.mp hsorted).1 next List.mem_cons_self
      have hne : arm.key.toInt ≠ next.key.toInt := mt Int32.toInt_inj.mp hkey
      exact .cons_cons (by omega) (ih (List.pairwise_cons.mp hsorted).2 h)

theorem pairwise_sortBy_key (arms : List KeyedArm) :
    (sortBy (fun a b => decide (a.key.toInt ≤ b.key.toInt)) arms).Pairwise
      fun arm next => arm.key.toInt ≤ next.key.toInt := by
  rw [sortBy_eq_insertionSort]
  have htotal : Std.Total fun a b : KeyedArm => decide (a.key.toInt ≤ b.key.toInt) = true :=
    ⟨fun a b => by simpa using Int.le_total _ _⟩
  have htrans : IsTrans KeyedArm fun a b => decide (a.key.toInt ≤ b.key.toInt) = true :=
    ⟨fun a b c hab hbc => by
      simp only [decide_eq_true_eq] at hab hbc ⊢
      omega⟩
  simpa using List.pairwise_insertionSort
    (fun a b : KeyedArm => decide (a.key.toInt ≤ b.key.toInt) = true) arms

theorem ascending_of_collectArms {switch : Tree} {arms : List Arm}
    {keyed : List (Int32 × Tree)} {otherwise : Option Tree}
    (h : collectArms switch arms = .ok (keyed, otherwise)) : Ascending keyed := by
  obtain ⟨⟨split, found⟩, _, h⟩ := bind_eq_ok.mp h
  dsimp only at h
  split at h
  · cases h
  · rename_i hrepeated
    obtain ⟨rfl, rfl⟩ := Prod.mk.inj (Except.ok.inj h)
    rw [Ascending, List.isChain_map]
    exact isChain_of_repeatedArm? (pairwise_sortBy_key split) hrepeated

theorem length_lt_of_choose_eq_lookup {keys : List Int32}
    (h : Encoding.choose keys = .lookup) : keys.length < 2 ^ 31 := by
  unfold Encoding.choose at h
  split at h
  · rename_i low high _ _
    dsimp only at h
    split_ifs at h with hcheaper
    have hlow := low.le_toInt
    have hhigh := high.toInt_lt
    rw [rangeSize] at hcheaper
    omega
  · rename_i hends
    cases hkeys : keys with
    | nil => decide
    | cons key rest =>
      have hlast := List.getLast?_eq_some_getLast (List.cons_ne_nil key rest)
      rw [hkeys] at hends
      exact (hends key _ rfl hlast).elim

theorem length_keysBetween {low high : Int32} (h : low.toInt < high.toInt) :
    ((keysBetween low high).length : Int) = high.toInt - low.toInt - 1 := by
  rw [keysBetween, List.length_map, List.length_range]
  omega

theorem head?_fillGaps (arms : List (Int32 × Tree)) : (fillGaps arms).head? = arms.head? := by
  unfold fillGaps
  split <;> rfl

theorem getLast?_fillGaps (arms : List (Int32 × Tree)) :
    (fillGaps arms).getLast? = arms.getLast? := by
  fun_induction fillGaps arms with
  | case1 key body next nextBody rest ih =>
    rw [List.getLast?_append, ih, List.getLast?_cons_cons]
    cases hlast : ((next, nextBody) :: rest).getLast? with
    | none => simp at hlast
    | some last => rfl
  | case2 => rfl

/-- Without gaps, there is an arm for every key of the range. -/
theorem length_fillGaps {arms : List (Int32 × Tree)} {first last : Int32 × Tree}
    (hascending : Ascending arms) (hfirst : arms.head? = some first)
    (hlast : arms.getLast? = some last) :
    ((fillGaps arms).length : Int) = rangeSize first.1 last.1 := by
  fun_induction fillGaps arms generalizing first with
  | case1 key body next nextBody rest ih =>
    obtain rfl := Option.some.inj hfirst
    obtain ⟨hlt, hrest⟩ := List.isChain_cons_cons.mp hascending
    rw [List.getLast?_cons_cons] at hlast
    have hlength := ih hrest rfl hlast
    have hbetween : ((keysBetween key next).length : Int) = next.toInt - key.toInt - 1 :=
      length_keysBetween hlt
    simp only [List.length_append, List.length_cons, List.length_map, rangeSize] at hlength ⊢
    omega
  | case2 arms hsmall =>
    cases arms with
    | nil => simp at hfirst
    | cons arm rest =>
      cases rest with
      | nil =>
        obtain rfl := Option.some.inj hfirst
        obtain rfl := Option.some.inj hlast
        simp [rangeSize]
      | cons next rest => exact (hsmall _ _ _ _ _ rfl).elim

/-- The first value is a literal that was not seen before. -/
theorem hashValues_cons_eq_ok {seen : List Literal} {value : Tree} {rest : List Tree}
    {result : List (Int32 × Tree) × List Literal} :
    hashValues seen (value :: rest) = .ok result ↔ ∃ literal hash hashed,
      value = .literal literal ∧ literal.hash? = some hash ∧
        seen.any literal.sameValue = false ∧
        hashValues (literal :: seen) rest = .ok (hashed, result.2) ∧
        result.1 = (hash, argument value) :: hashed := by
  constructor
  · intro h
    cases value with
    | literal literal =>
      rw [hashValues] at h
      split at h
      · cases h
      · rename_i hash hhash
        split_ifs at h with hany
        obtain ⟨⟨hashed, seen'⟩, hrest, h⟩ := bind_eq_ok.mp h
        obtain rfl := Except.ok.inj h
        exact ⟨literal, hash, hashed, rfl, hhash, by simpa using hany, hrest, rfl⟩
    | _ => cases h
  · rintro ⟨literal, hash, hashed, rfl, hhash, hany, hrest, hfirst⟩
    simp only [hashValues, hhash, hany, Bool.false_eq_true, if_false]
    exact bind_eq_ok.mpr ⟨_, hrest, congrArg Except.ok (Prod.ext hfirst.symm rfl)⟩

end Switch

theorem State.map_fst_armTargets {otherwise : Label} {arms : List (Int32 × Tree)}
    {targets : List (Int32 × Label)} {s s' : State}
    (h : s.armTargets otherwise arms = (targets, s')) :
    targets.map Prod.fst = arms.map Prod.fst := by
  induction arms generalizing s targets with
  | nil =>
    obtain ⟨rfl, _⟩ := Prod.mk.inj h
    rfl
  | cons arm rest ih =>
    rw [State.armTargets] at h
    split_ifs at h
    all_goals
      obtain ⟨rfl, hstate⟩ := Prod.mk.inj h
      rw [List.map_cons, List.map_cons, ih (Prod.ext rfl hstate)]

/-- The table that is written has the size it says. -/
theorem dispatchCall_proper {switch : Tree} {arms : List Arm} {maxEntries : Nat}
    {keyed dispatched : List (Int32 × Tree)} {defaultBody : Option Tree}
    {targets : List (Int32 × Label)}
    (hkeyed : Switch.collectArms switch arms = .ok (keyed, defaultBody))
    (hdispatched : Lowering.dispatchedArms (Switch.Encoding.choose (keyed.map Prod.fst))
      maxEntries keyed = .ok dispatched)
    (htargets : targets.map Prod.fst = dispatched.map Prod.fst) (otherwise : Label) :
    (dispatchCall (Switch.Encoding.choose (keyed.map Prod.fst)) otherwise targets).Proper := by
  have hlength : targets.length = dispatched.length := by
    simpa using congrArg List.length htargets
  cases hencoding : Switch.Encoding.choose (keyed.map Prod.fst) with
  | lookup =>
    obtain rfl : keyed = dispatched := by
      rw [hencoding] at hdispatched
      exact Except.ok.inj hdispatched
    have hsmall := Switch.length_lt_of_choose_eq_lookup hencoding
    rw [List.length_map, ← hlength] at hsmall
    exact hsmall
  | table =>
    obtain ⟨first, last, hfirst, hlast⟩ :
        ∃ first last, keyed.head? = some first ∧ keyed.getLast? = some last := by
      cases keyed with
      | nil => cases hencoding
      | cons arm rest =>
        exact ⟨arm, _, rfl, List.getLast?_eq_some_getLast (List.cons_ne_nil arm rest)⟩
    obtain rfl : Switch.fillGaps keyed = dispatched := by
      rw [hencoding] at hdispatched
      simp only [Lowering.dispatchedArms, hfirst, hlast] at hdispatched
      split_ifs at hdispatched
      exact Except.ok.inj hdispatched
    have hsize := Switch.length_fillGaps (Switch.ascending_of_collectArms hkeyed) hfirst hlast
    obtain ⟨low, hlow, hlowKey⟩ : ∃ low, targets.head? = some low ∧ low.1 = first.1 := by
      have hhead := congrArg List.head? htargets
      rw [List.head?_map, List.head?_map, Switch.head?_fillGaps, hfirst] at hhead
      exact Option.map_eq_some_iff.mp hhead
    obtain ⟨high, hhigh, hhighKey⟩ : ∃ high, targets.getLast? = some high ∧ high.1 = last.1 := by
      have hend := congrArg List.getLast? htargets
      rw [List.getLast?_map, List.getLast?_map, Switch.getLast?_fillGaps, hlast] at hend
      exact Option.map_eq_some_iff.mp hend
    simp only [dispatchCall, hlow, hhigh, Call.Proper, List.length_map]
    rw [hlength, hsize, Switch.rangeSize, hlowKey, hhighKey]

end StackLowering
