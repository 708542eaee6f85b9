import StackLowering.Proofs.WellFormed
/-!
Identity of constants. A pool that was filled from nothing holds each constant
that was added once, in the order of the first additions. An index stands for one
constant for good, and constants share an index only if they have one kind and the
same bits.
-/

namespace StackLowering.Pool

variable (pool : Pool) (constant : Constant)

/-- A constant has one place only. -/
theorem get?_unique {pool : Pool} {constant : Constant} {index other : Nat}
    (h : pool.get? index = some constant) (hother : pool.get? other = some constant) :
    index = other := by
  have hindex := (pool.indexed constant.key index).mpr ⟨constant, h, rfl⟩
  rw [(pool.indexed constant.key other).mpr ⟨constant, hother, rfl⟩] at hindex
  exact (Option.some.inj hindex).symm

theorem mem_entries_iff :
    constant ∈ pool.entries.toList ↔ ∃ index, pool.get? index = some constant := by
  simp only [List.mem_iff_getElem?, Array.getElem?_toList]
  rfl

theorem entries_add : (pool.add constant).2.entries.toList =
    if constant ∈ pool.entries.toList then pool.entries.toList
    else pool.entries.toList ++ [constant] := by
  unfold add
  split
  next index hindex =>
    obtain ⟨other, hother, hkey⟩ := (pool.indexed _ index).mp hindex
    rw [Constant.key_inj hkey] at hother
    rw [if_pos ((pool.mem_entries_iff constant).mpr ⟨index, hother⟩)]
  next hnone =>
    rw [if_neg, push, Array.toList_push]
    intro hmem
    obtain ⟨index, hindex⟩ := (pool.mem_entries_iff constant).mp hmem
    rw [(pool.indexed _ index).mpr ⟨constant, hindex, rfl⟩] at hnone
    cases hnone

theorem addAll_append (first rest : List Constant) :
    pool.addAll (first ++ rest) = (pool.addAll first).addAll rest :=
  List.foldl_append

/-- The entries are the added constants, each where it was added first. -/
theorem entries_addAll (constants : List Constant) :
    (empty.addAll constants).entries.toList = constants.eraseDups := by
  induction constants using List.reverseRecOn with
  | nil => rfl
  | append_singleton first constant ih =>
    rw [addAll_append, List.eraseDups_append]
    change ((empty.addAll first).add constant).2.entries.toList = _
    rw [entries_add, ih]
    by_cases hmem : constant ∈ first <;> simp [List.removeAll, List.eraseDups_cons, hmem]

-- The two zeros and the payloads of NaNs are told apart, and so are widths.
example : (empty.addAll [.double 0, .double 0x8000000000000000, .double 0x7ff8000000000000,
    .double 0x7ff8000000000001, .double 0x7ff8000000000000, .int 7, .long 7]).entries.size = 6 := by
  decide

/-- A constant that has a place gets its index again, and no other one does. -/
theorem add_eq_iff {pool : Pool} {constant : Constant} {index : Nat}
    (h : pool.get? index = some constant) (other : Constant) :
    (pool.add other).1 = index ↔ other = constant := by
  have hadded := get?_add pool other
  have hkept := get?_add_of_some h other
  constructor
  · intro heq
    rw [heq, hkept] at hadded
    exact (Option.some.inj hadded).symm
  · rintro rfl
    exact get?_unique hadded hkept

/-- The identity of constants, after any additions to an empty pool: the entries are
the added constants without the repetitions. An addition returns the position of its
constant, which can be read there from then on, and whatever is added later, the same
index is returned for the same constant and for no other one. -/
theorem addAll_identifies (history : List Constant) :
    (empty.addAll history).entries.toList = history.eraseDups ∧
      ∀ constant later,
        let index := ((empty.addAll history).add constant).1
        index = (history ++ [constant]).eraseDups.idxOf constant ∧
          (empty.addAll (history ++ constant :: later)).get? index = some constant ∧
          ∀ other, ((empty.addAll (history ++ constant :: later)).add other).1 = index ↔
            other = constant := by
  refine ⟨entries_addAll history, fun constant later => ?_⟩
  have hread := get?_add (empty.addAll history) constant
  have hlater : (empty.addAll (history ++ constant :: later)).get?
      ((empty.addAll history).add constant).1 = some constant := by
    rw [addAll_append]
    exact extends_addAll _ later _ _ hread
  refine ⟨?_, hlater, add_eq_iff hlater⟩
  apply get?_unique hread
  have hmem : constant ∈ (history ++ [constant]).eraseDups := by simp
  have hplace := List.getElem?_idxOf hmem
  generalize (history ++ [constant]).eraseDups.idxOf constant = index at hplace ⊢
  rw [← entries_addAll, addAll_append, Array.getElem?_toList] at hplace
  exact hplace

end StackLowering.Pool
