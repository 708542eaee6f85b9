import StackLowering.Proofs.SlotTable
/-!
Generated names. The search for a new name stops at the first number that makes
an unused one, and it always finds one. Every name in the slot table is used, so
a generated name is new to the table as well.
-/

namespace StackLowering.Slots

variable {slots slots' : Slots} {name base : String}

/-- Every name declared, reserved or generated so far. -/
def names (slots : Slots) : List String := slots.usedNames.toList ++ slots.hiddenNames

theorem isUsed_iff_mem : slots.isUsed name = true ↔ name ∈ slots.names := by
  rw [isUsed, names, Bool.or_eq_true, List.mem_append, List.contains_iff_mem,
    Std.TreeSet.contains_iff_mem, Std.TreeSet.mem_toList]

theorem length_names (slots : Slots) :
    slots.names.length = slots.usedNames.size + slots.hiddenNames.length := by
  simp [names, Std.TreeSet.length_toList]

theorem numbered_injective (base : String) :
    Function.Injective fun number : Nat => base ++ toString number := by
  intro number other h
  have hnumber : toString number = toString other := (String.append_right_inj base).mp h
  exact Nat.repr_injective hnumber

/-- The search goes on as long as names are used and there are tries left. -/
theorem unusedNumber_spec (slots : Slots) (base : String) (tries counter : Nat) :
    counter ≤ slots.unusedNumber base tries counter ∧
      (∀ number, counter ≤ number → number < slots.unusedNumber base tries counter →
        slots.isUsed (base ++ toString number) = true) ∧
      (slots.isUsed (base ++ toString (slots.unusedNumber base tries counter)) = false ∨
        slots.unusedNumber base tries counter = counter + tries) := by
  induction tries generalizing counter with
  | zero =>
    refine ⟨le_refl _, fun number hle hlt => ?_, .inr rfl⟩
    rw [unusedNumber] at hlt
    omega
  | succ tries ih =>
    rw [unusedNumber]
    split_ifs with hused
    · obtain ⟨hle, hbefore, hend⟩ := ih (counter + 1)
      refine ⟨by omega, fun number hnumber hlt => ?_, ?_⟩
      · rcases Nat.eq_or_lt_of_le hnumber with rfl | hgt
        · exact hused
        · exact hbefore number hgt hlt
      · rcases hend with hunused | hall
        · exact .inl hunused
        · right
          omega
    · exact ⟨le_refl _, fun number hle hlt => by omega, .inl (Bool.eq_false_of_not_eq_true hused)⟩

/-- Among more numbers than there are names, one makes a new name. -/
theorem exists_numbered_notMem {names : List String} {tries : Nat} (htries : names.length < tries)
    (base : String) (counter : Nat) :
    ∃ i < tries, base ++ toString (counter + i) ∉ names := by
  by_contra hall
  push Not at hall
  let tried := (List.range tries).map fun i => base ++ toString (counter + i)
  have hdistinct : tried.Nodup := by
    refine List.nodup_range.map fun i j h => ?_
    have hsum := numbered_injective base h
    omega
  have hused : tried ⊆ names := by
    intro name hmem
    obtain ⟨i, hi, rfl⟩ := List.mem_map.mp hmem
    exact hall i (List.mem_range.mp hi)
  have hlength := (hdistinct.subperm hused).length_le
  rw [List.length_map, List.length_range] at hlength
  omega

theorem isUsed_unusedNumber {tries : Nat} (htries : slots.names.length < tries) (counter : Nat) :
    slots.isUsed (base ++ toString (slots.unusedNumber base tries counter)) = false := by
  obtain ⟨_, hbefore, hend⟩ := slots.unusedNumber_spec base tries counter
  refine hend.resolve_right fun hall => ?_
  obtain ⟨i, hi, hunused⟩ := exists_numbered_notMem htries base counter
  exact hunused (isUsed_iff_mem.mp (hbefore (counter + i) (by omega) (by omega)))

/-- A generated name carries the first number from the counter on that makes an
unused name. -/
theorem uniqueName_spec (slots : Slots) (base : String) :
    ∃ number, slots.nameCounter ≤ number ∧
      (slots.uniqueName base).1 = base ++ toString number ∧
      slots.isUsed (base ++ toString number) = false ∧
      ∀ smaller, slots.nameCounter ≤ smaller → smaller < number →
        slots.isUsed (base ++ toString smaller) = true := by
  have htries : slots.names.length < slots.usedNames.size + slots.hiddenNames.length + 1 := by
    rw [length_names]
    omega
  obtain ⟨hle, hbefore, _⟩ := slots.unusedNumber_spec base
    (slots.usedNames.size + slots.hiddenNames.length + 1) slots.nameCounter
  exact ⟨_, hle, rfl, isUsed_unusedNumber htries slots.nameCounter, hbefore⟩

theorem isUsed_uniqueName (slots : Slots) (base : String) :
    slots.isUsed (slots.uniqueName base).1 = false := by
  obtain ⟨number, _, hname, hunused, _⟩ := slots.uniqueName_spec base
  rw [hname]
  exact hunused

/-- A generated name depends on the names in use and on the counter only. -/
theorem uniqueName_congr (hused : slots.usedNames = slots'.usedNames)
    (hhidden : slots.hiddenNames = slots'.hiddenNames)
    (hcounter : slots.nameCounter = slots'.nameCounter) (base : String) :
    (slots.uniqueName base).1 = (slots'.uniqueName base).1 ∧
      (slots.uniqueName base).2.nameCounter = (slots'.uniqueName base).2.nameCounter := by
  have hnumber (tries counter : Nat) :
      slots.unusedNumber base tries counter = slots'.unusedNumber base tries counter := by
    induction tries generalizing counter with
    | zero => rfl
    | succ tries ih => rw [unusedNumber, unusedNumber, isUsed, isUsed, hused, hhidden, ih]
  simp only [uniqueName, hnumber, hused, hhidden, hcounter, and_self]

theorem isUsed_of_mem_hiddenNames (h : name ∈ slots.hiddenNames) : slots.isUsed name = true :=
  isUsed_iff_mem.mpr (List.mem_append_right _ h)

/-- How many slots were handed out to variables of this name. -/
def declarations (slots : Slots) (name : String) : Nat :=
  (slots.table.toList.map SlotEntry.name).count name

/-- The names of variables are used, and generated names differ. -/
structure Named (slots : Slots) : Prop where
  table : ∀ entry ∈ slots.table.toList, slots.isUsed entry.name = true
  bindings : ∀ (name : String) (binding : Binding), slots.bindings[name]? = some binding →
    ∃ entry ∈ slots.table.toList, entry.name = name
  shadowed : ∀ shadow ∈ slots.shadowed, ∃ entry ∈ slots.table.toList, entry.name = shadow.name
  hidden : slots.hiddenNames.Nodup

theorem named_empty : empty.Named where
  table := by simp [empty]
  bindings := by simp [empty]
  shadowed := by simp [empty]
  hidden := List.nodup_nil

theorem declarations_eq_zero : slots.declarations name = 0 ↔
    ∀ entry ∈ slots.table.toList, entry.name ≠ name := by
  simp [declarations, List.count_eq_zero]

theorem Named.declarations_of_unused (h : slots.Named) (hunused : slots.isUsed name = false) :
    slots.declarations name = 0 := by
  refine declarations_eq_zero.mpr fun entry hmem heq => ?_
  have hused := h.table entry hmem
  rw [heq, hunused] at hused
  cases hused

variable {ty : Ty} {slot : UInt16} {other : String}

theorem isUsed_allocate :
    (slots.allocate name ty slot).isUsed other = true ↔
      other = name ∨ slots.isUsed other = true := by
  rw [isUsed, allocate, Std.TreeSet.contains_insert, Bool.or_assoc, Bool.or_eq_true]
  refine or_congr_left ?_
  rw [beq_iff_eq, Std.LawfulEqCmp.compare_eq_iff_eq, eq_comm]

theorem isUsed_reserve :
    (slots.reserve name).isUsed other = true ↔ other = name ∨ slots.isUsed other = true := by
  rw [isUsed, reserve, Std.TreeSet.contains_insert, Bool.or_assoc, Bool.or_eq_true]
  refine or_congr_left ?_
  rw [beq_iff_eq, Std.LawfulEqCmp.compare_eq_iff_eq, eq_comm]

theorem declarations_allocate :
    (slots.allocate name ty slot).declarations other =
      slots.declarations other + if name = other then 1 else 0 := by
  simp only [declarations, allocate, Array.toList_push, List.map_append, List.map_cons,
    List.map_nil, List.count_append, List.count_singleton, beq_iff_eq]

theorem Named.popScope (h : slots.Named) : slots.popScope.Named := by
  unfold Slots.popScope
  split_ifs
  · exact h
  · refine ⟨h.table, fun name binding hbinding => ?_, fun shadow hmem => ?_, h.hidden⟩
    · rcases mem_restore hbinding with hvisible | ⟨shadow, hmem, rfl, _⟩
      · rw [Std.TreeMap.getElem?_filter, Option.pfilter_eq_some_iff] at hvisible
        obtain ⟨hbefore, _⟩ := hvisible
        exact h.bindings name binding hbefore
      · exact h.shadowed shadow hmem
    · exact h.shadowed shadow (restore_subset shadow hmem)

theorem Named.shadow (h : slots.Named) (name : String) : (slots.shadow name).Named := by
  unfold Slots.shadow
  cases hbinding : slots.bindings[name]? with
  | none => exact h
  | some existing =>
    dsimp only
    split_ifs
    · exact h
    · refine ⟨h.table, h.bindings, List.forall_mem_cons.mpr ⟨?_, h.shadowed⟩, h.hidden⟩
      exact h.bindings name existing hbinding

theorem Named.allocate (h : slots.Named) (name : String) (ty : Ty) (slot : UInt16) :
    (slots.allocate name ty slot).Named := by
  have hold {other : String} (hother : ∃ entry ∈ slots.table.toList, entry.name = other) :
      ∃ entry ∈ (slots.allocate name ty slot).table.toList, entry.name = other := by
    obtain ⟨entry, hmem, hname⟩ := hother
    refine ⟨entry, ?_, hname⟩
    rw [Slots.allocate, Array.toList_push]
    exact List.mem_append_left _ hmem
  refine ⟨fun entry hmem => ?_, fun other binding hbinding => ?_,
    fun shadow hmem => hold (h.shadowed shadow hmem), h.hidden⟩
  · rw [Slots.allocate, Array.toList_push, List.mem_append, List.mem_singleton] at hmem
    rw [isUsed_allocate]
    rcases hmem with hmem | rfl
    · exact .inr (h.table entry hmem)
    · exact .inl rfl
  · rw [Slots.allocate, Std.TreeMap.getElem?_insert] at hbinding
    split_ifs at hbinding with hname
    · refine ⟨⟨name, ty, slot⟩, ?_, Std.LawfulEqCmp.eq_of_compare hname⟩
      rw [Slots.allocate, Array.toList_push]
      exact List.mem_append_right _ (List.mem_singleton_self _)
    · exact hold (h.bindings other binding hbinding)

/-- What the operations on slots do to the names in use. -/
theorem Step.named (h : Step slots slots') (hnamed : slots.Named) : slots'.Named := by
  cases h with
  | pushScope => exact ⟨hnamed.table, hnamed.bindings, hnamed.shadowed, hnamed.hidden⟩
  | popScope => exact hnamed.popScope
  | reserve =>
    refine ⟨fun entry hmem => ?_, hnamed.bindings, hnamed.shadowed, hnamed.hidden⟩
    exact isUsed_reserve.mpr (.inr (hnamed.table entry hmem))
  | @uniqueName base =>
    refine ⟨fun entry hmem => ?_, hnamed.bindings, hnamed.shadowed, ?_⟩
    · have hused := hnamed.table entry hmem
      rw [isUsed_iff_mem, names, List.mem_append] at hused
      exact isUsed_iff_mem.mpr (List.mem_append.mpr (hused.imp_right (List.mem_cons_of_mem _)))
    · refine List.nodup_cons.mpr ⟨fun hmem => ?_, hnamed.hidden⟩
      have hused := isUsed_of_mem_hiddenNames hmem
      have hunused := slots.isUsed_uniqueName base
      exact Bool.false_ne_true (hunused.symm.trans hused)
  | declare hdeclare =>
    rcases declare_eq_ok hdeclare with ⟨_, rfl⟩ | ⟨_, _, rfl⟩
    · exact hnamed
    · exact (hnamed.shadow _).allocate _ _ _

theorem declarations_declare (h : slots.declare name ty = (.ok slot, slots'))
    (hother : other ≠ name) :
    slots'.declarations other = slots.declarations other := by
  rcases declare_eq_ok h with ⟨_, rfl⟩ | ⟨_, _, rfl⟩
  · rfl
  · rw [declarations_allocate, if_neg (Ne.symm hother), shadow_eq]
    rfl

theorem isUsed_declare (h : slots.declare name ty = (.ok slot, slots'))
    (hother : slots.isUsed other = true) : slots'.isUsed other = true := by
  rcases declare_eq_ok h with ⟨_, rfl⟩ | ⟨_, _, rfl⟩
  · exact hother
  · rw [isUsed_allocate, shadow_eq]
    exact .inr hother

theorem isUsed_of_declare (h : slots.declare name ty = (.ok slot, slots')) (hnamed : slots.Named) :
    slots'.isUsed name = true := by
  rcases declare_eq_ok h with ⟨hredeclared, rfl⟩ | ⟨_, _, rfl⟩
  · obtain ⟨binding, hbinding, _⟩ := redeclared?_eq_some hredeclared
    obtain ⟨entry, hmem, rfl⟩ := hnamed.bindings name binding hbinding
    exact hnamed.table entry hmem
  · exact isUsed_allocate.mpr (.inl rfl)

theorem hiddenNames_declare (h : slots.declare name ty = (.ok slot, slots')) :
    slots'.hiddenNames = slots.hiddenNames := by
  rcases declare_eq_ok h with ⟨_, rfl⟩ | ⟨_, _, rfl⟩
  · rfl
  · rw [Slots.allocate, shadow_eq]

theorem Named.declarations_declare_new (hnamed : slots.Named)
    (h : slots.declare name ty = (.ok slot, slots')) (hnew : slots.declarations name = 0) :
    slots'.declarations name = 1 := by
  rcases declare_eq_ok h with ⟨hredeclared, _⟩ | ⟨_, _, rfl⟩
  · obtain ⟨binding, hbinding, _⟩ := redeclared?_eq_some hredeclared
    obtain ⟨entry, hmem, hname⟩ := hnamed.bindings name binding hbinding
    exact absurd hname (declarations_eq_zero.mp hnew entry hmem)
  · rw [declarations_allocate, if_pos rfl, shadow_eq]
    change slots.declarations name + 1 = 1
    rw [hnew]

end StackLowering.Slots
