import Mathlib
import StackLowering.Slots
/-!
The slot table. Every slot that a variable has, visible or hidden, is in the
table, and every slot of the table lies in the frame. Operations on slots keep
this and only add to the table.
-/

namespace StackLowering.Slots

/-- An operation on the slots of a routine that succeeds. -/
inductive Step : Slots → Slots → Prop
  | pushScope {slots : Slots} : Step slots slots.pushScope
  | popScope {slots : Slots} : Step slots slots.popScope
  | reserve {slots : Slots} {name : String} : Step slots (slots.reserve name)
  | uniqueName {slots : Slots} {base : String} : Step slots (slots.uniqueName base).2
  | declare {slots slots' : Slots} {name : String} {ty : Ty} {slot : UInt16}
      (h : slots.declare name ty = (.ok slot, slots')) : Step slots slots'

/-- The slot was handed out. -/
def Lists (slots : Slots) (slot : UInt16) : Prop := ∃ entry ∈ slots.table.toList, entry.slot = slot

structure Valid (slots : Slots) : Prop where
  bindings : ∀ (name : String) (binding : Binding), slots.bindings[name]? = some binding → slots.Lists binding.slot
  shadowed : ∀ shadow ∈ slots.shadowed, slots.Lists shadow.binding.slot
  frame : ∀ slot, slots.Lists slot → slot.toNat < slots.frameSize

theorem valid_empty : empty.Valid where
  bindings := by simp [empty]
  shadowed := by simp [empty]
  frame := by simp [Lists, empty]

variable {slot : UInt16} {name : String} {ty : Ty} {slots' : Slots}

/-- What is restored was visible or hidden. -/
theorem mem_restore {depth : Nat} {shadowed : List Shadow} {bindings : Std.TreeMap String Binding}
    {binding : Binding} (h : (restore bindings depth shadowed).1[name]? = some binding) :
    bindings[name]? = some binding ∨
      ∃ shadow ∈ shadowed, shadow.name = name ∧ shadow.binding = binding := by
  induction shadowed generalizing bindings with
  | nil => exact .inl h
  | cons shadow rest ih =>
    rw [restore] at h
    split_ifs at h with hdepth
    · rcases ih h with hvisible | ⟨other, hmem, hbinding⟩
      · rw [Std.TreeMap.getElem?_insert] at hvisible
        split_ifs at hvisible with hname
        · have hequal : shadow.name = name := Std.LawfulEqCmp.eq_of_compare hname
          exact .inr ⟨shadow, List.mem_cons_self, hequal, Option.some.inj hvisible⟩
        · exact .inl hvisible
      · exact .inr ⟨other, List.mem_cons_of_mem _ hmem, hbinding⟩
    · exact .inl h

theorem restore_subset {depth : Nat} {shadowed : List Shadow}
    {bindings : Std.TreeMap String Binding} :
    ∀ shadow ∈ (restore bindings depth shadowed).2, shadow ∈ shadowed := by
  induction shadowed generalizing bindings with
  | nil => simp [restore]
  | cons shadow rest ih =>
    intro other hmem
    rw [restore] at hmem
    split_ifs at hmem
    · exact List.mem_cons_of_mem _ (ih other hmem)
    · exact hmem

theorem Valid.popScope {slots : Slots} (h : slots.Valid) : slots.popScope.Valid := by
  unfold Slots.popScope
  split_ifs with hdepth
  · exact h
  · refine ⟨fun name binding hbinding => ?_, fun shadow hmem => ?_, h.frame⟩
    · rcases mem_restore hbinding with hvisible | ⟨shadow, hmem, _, rfl⟩
      · rw [Std.TreeMap.getElem?_filter, Option.pfilter_eq_some_iff] at hvisible
        obtain ⟨hbefore, _⟩ := hvisible
        exact h.bindings name binding hbefore
      · exact h.shadowed shadow hmem
    · exact h.shadowed shadow (restore_subset shadow hmem)

theorem Valid.shadow {slots : Slots} (h : slots.Valid) (name : String) :
    (slots.shadow name).Valid := by
  unfold Slots.shadow
  cases hbinding : slots.bindings[name]? with
  | none => exact h
  | some existing =>
    dsimp only
    split_ifs
    · exact h
    · refine ⟨h.bindings, fun shadow hmem => ?_, h.frame⟩
      rcases List.mem_cons.mp hmem with rfl | hold
      · exact h.bindings name existing hbinding
      · exact h.shadowed shadow hold

theorem shadow_eq (slots : Slots) (name : String) :
    slots.shadow name = { slots with shadowed := (slots.shadow name).shadowed } := by
  unfold Slots.shadow
  split
  · split_ifs <;> rfl
  · rfl

theorem popScope_eq (slots : Slots) :
    slots.popScope =
      { slots with
        bindings := slots.popScope.bindings
        shadowed := slots.popScope.shadowed
        depth := slots.popScope.depth } := by
  unfold Slots.popScope
  split_ifs <;> rfl

theorem nextSlot_eq_ok {slots : Slots} (h : slots.nextSlot = .ok slot) :
    slot.toNat = slots.frameSize := by
  unfold nextSlot at h
  split_ifs at h with hlt
  cases h
  exact UInt16.toNat_ofNat_of_lt' hlt

theorem lists_allocate {slots : Slots} {other : UInt16} :
    (slots.allocate name ty slot).Lists other ↔ slots.Lists other ∨ other = slot := by
  simp only [Lists, allocate, Array.toList_push, List.mem_append, List.mem_singleton]
  constructor
  · rintro ⟨entry, hold | rfl, rfl⟩
    · exact .inl ⟨entry, hold, rfl⟩
    · exact .inr rfl
  · rintro (⟨entry, hold, rfl⟩ | rfl)
    · exact ⟨entry, .inl hold, rfl⟩
    · exact ⟨_, .inr rfl, rfl⟩

theorem Valid.allocate {slots : Slots} (h : slots.Valid) (hslot : slots.nextSlot = .ok slot)
    (name : String) (ty : Ty) :
    (slots.allocate name ty slot).Valid where
  bindings := by
    intro other binding hbinding
    rw [lists_allocate]
    rw [Slots.allocate, Std.TreeMap.getElem?_insert] at hbinding
    split_ifs at hbinding
    · cases hbinding
      exact .inr rfl
    · exact .inl (h.bindings other binding hbinding)
  shadowed := by
    intro shadow hmem
    exact lists_allocate.mpr (.inl (h.shadowed shadow hmem))
  frame := by
    intro other hother
    have hsize : (slots.allocate name ty slot).frameSize = slots.frameSize + max 1 ty.width := rfl
    rcases lists_allocate.mp hother with hold | rfl
    · have hlt := h.frame other hold
      omega
    · have hnext := nextSlot_eq_ok hslot
      omega

theorem declare_eq_ok {slots : Slots} (h : slots.declare name ty = (.ok slot, slots')) :
    slots.redeclared? name ty = some slot ∧ slots' = slots ∨
      slots.redeclared? name ty = none ∧ (slots.shadow name).nextSlot = .ok slot ∧
        slots' = (slots.shadow name).allocate name ty slot := by
  unfold Slots.declare at h
  cases hredeclared : slots.redeclared? name ty with
  | some existing =>
    rw [hredeclared] at h
    cases h
    exact .inl ⟨rfl, rfl⟩
  | none =>
    rw [hredeclared] at h
    dsimp only at h
    split at h
    · rename_i next hnext
      cases h
      exact .inr ⟨rfl, hnext, rfl⟩
    · cases h

theorem redeclared?_eq_some {slots : Slots} (h : slots.redeclared? name ty = some slot) :
    ∃ binding : Binding, slots.bindings[name]? = some binding ∧ binding.slot = slot ∧
      binding.ty = ty ∧ binding.depth = slots.depth := by
  unfold redeclared? at h
  split at h
  · rename_i existing hexisting
    split_ifs at h with hsame
    exact ⟨existing, hexisting, Option.some.inj h, hsame.2, hsame.1⟩
  · cases h

theorem require_eq_ok {slots : Slots} :
    slots.require name ty = .ok slot ↔
      ∃ binding : Binding, slots.bindings[name]? = some binding ∧ binding.ty = ty ∧
        binding.slot = slot := by
  unfold require
  cases slots.bindings[name]? with
  | none => simp
  | some binding => by_cases hty : binding.ty = ty <;> simp [hty]

theorem Valid.lists_of_require {slots : Slots} (h : slots.Valid)
    (hslot : slots.require name ty = .ok slot) : slots.Lists slot := by
  obtain ⟨binding, hbinding, _, rfl⟩ := require_eq_ok.mp hslot
  exact h.bindings name binding hbinding

theorem Valid.lists_of_declare {slots : Slots} (h : slots.Valid)
    (hslot : slots.declare name ty = (.ok slot, slots')) : slots'.Lists slot := by
  rcases declare_eq_ok hslot with ⟨hredeclared, rfl⟩ | ⟨_, _, rfl⟩
  · obtain ⟨binding, hbinding, rfl, _⟩ := redeclared?_eq_some hredeclared
    exact h.bindings name binding hbinding
  · exact lists_allocate.mpr (.inr rfl)

namespace Step

theorem valid {slots : Slots} (h : Step slots slots') (hvalid : slots.Valid) :
    slots'.Valid := by
  cases h with
  | pushScope => exact ⟨hvalid.bindings, hvalid.shadowed, hvalid.frame⟩
  | popScope => exact hvalid.popScope
  | reserve => exact ⟨hvalid.bindings, hvalid.shadowed, hvalid.frame⟩
  | uniqueName => exact ⟨hvalid.bindings, hvalid.shadowed, hvalid.frame⟩
  | declare hdeclare =>
    rcases declare_eq_ok hdeclare with ⟨_, rfl⟩ | ⟨_, hnext, rfl⟩
    · exact hvalid
    · exact (hvalid.shadow _).allocate hnext _ _

theorem lists {slots : Slots} (h : Step slots slots') (hslot : slots.Lists slot) :
    slots'.Lists slot := by
  cases h with
  | pushScope | reserve | uniqueName => exact hslot
  | popScope => rwa [popScope_eq]
  | declare hdeclare =>
    rcases declare_eq_ok hdeclare with ⟨_, rfl⟩ | ⟨_, _, rfl⟩
    · exact hslot
    · refine lists_allocate.mpr (.inl ?_)
      rwa [shadow_eq]

end Step

end StackLowering.Slots
