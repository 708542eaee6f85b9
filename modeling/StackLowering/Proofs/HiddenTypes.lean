import StackLowering.Proofs.UniqueNames
/-!
Slots that differ in the types of hidden variables. Which slot a declaration gets
and what a name means does not depend on the type of a variable that nothing
looks up, apart from the number of its cells. So two tables that agree on
everything but the types of such variables go on giving the same answers.
-/

namespace StackLowering

/-- What is seen of a binding: of a hidden variable not the type. -/
def Binding.seen (visible : String → Bool) (name : String) (binding : Binding) : Binding :=
  if visible name then binding else { binding with ty := Ty.void }

def Shadow.seen (visible : String → Bool) (shadow : Shadow) : Shadow :=
  { shadow with binding := shadow.binding.seen visible shadow.name }

section Seen

variable {visible : String → Bool} {name : String}

@[simp]
theorem Binding.depth_seen (binding : Binding) :
    (binding.seen visible name).depth = binding.depth := by
  unfold Binding.seen
  split_ifs <;> rfl

theorem Binding.seen_of_visible (h : visible name = true) : Binding.seen visible name = id := by
  funext binding
  rw [Binding.seen, if_pos h, id]

theorem Binding.seen_eq_of_hidden (h : visible name = false) {ty ty' : Ty} {slot : UInt16}
    {depth : Nat} :
    Binding.seen visible name ⟨ty, slot, depth⟩ = Binding.seen visible name ⟨ty', slot, depth⟩ := by
  simp [Binding.seen, h]

end Seen

namespace Slots

/-- The tables agree, except for the types of hidden variables. -/
structure Alike (visible : String → Bool) (slots slots' : Slots) : Prop where
  bindings : ∀ name : String, (slots.bindings[name]?).map (Binding.seen visible name) =
    (slots'.bindings[name]?).map (Binding.seen visible name)
  shadowed : slots.shadowed.map (Shadow.seen visible) = slots'.shadowed.map (Shadow.seen visible)
  depth : slots.depth = slots'.depth
  frameSize : slots.frameSize = slots'.frameSize
  usedNames : slots.usedNames = slots'.usedNames
  hiddenNames : slots.hiddenNames = slots'.hiddenNames
  nameCounter : slots.nameCounter = slots'.nameCounter

namespace Alike

variable {visible : String → Bool} {slots slots' slots'' : Slots} {name : String} {ty ty' : Ty}

theorem refl (slots : Slots) : slots.Alike visible slots :=
  ⟨fun _ => rfl, rfl, rfl, rfl, rfl, rfl, rfl⟩

section

variable (h : slots.Alike visible slots')

include h

theorem symm : slots'.Alike visible slots :=
  ⟨fun name => (h.bindings name).symm, h.shadowed.symm, h.depth.symm, h.frameSize.symm,
    h.usedNames.symm, h.hiddenNames.symm, h.nameCounter.symm⟩

theorem trans (h' : slots'.Alike visible slots'') : slots.Alike visible slots'' :=
  ⟨fun name => (h.bindings name).trans (h'.bindings name), h.shadowed.trans h'.shadowed,
    h.depth.trans h'.depth, h.frameSize.trans h'.frameSize, h.usedNames.trans h'.usedNames,
    h.hiddenNames.trans h'.hiddenNames, h.nameCounter.trans h'.nameCounter⟩

theorem binding_eq (hname : visible name = true) :
    slots.bindings[name]? = slots'.bindings[name]? := by
  have hseen := h.bindings name
  rwa [Binding.seen_of_visible hname, Option.map_id, id, id] at hseen

theorem isUsed (name : String) : slots.isUsed name = slots'.isUsed name := by
  rw [Slots.isUsed, Slots.isUsed, h.usedNames, h.hiddenNames]

theorem require (hname : visible name = true) : slots.require name ty = slots'.require name ty := by
  rw [Slots.require, Slots.require, h.binding_eq hname]

theorem redeclared? (hname : visible name = true) :
    slots.redeclared? name ty = slots'.redeclared? name ty := by
  rw [Slots.redeclared?, Slots.redeclared?, h.binding_eq hname, h.depth]

theorem nextSlot : slots.nextSlot = slots'.nextSlot := by
  rw [Slots.nextSlot, Slots.nextSlot, h.frameSize]

theorem pushScope : slots.pushScope.Alike visible slots'.pushScope :=
  { h with depth := congrArg (· + 1) h.depth }

theorem uniqueName (base : String) : (slots.uniqueName base).1 = (slots'.uniqueName base).1 ∧
      (slots.uniqueName base).2.Alike visible (slots'.uniqueName base).2 := by
  obtain ⟨hname, hcounter⟩ := uniqueName_congr h.usedNames h.hiddenNames h.nameCounter base
  refine ⟨hname, { h with hiddenNames := ?_, nameCounter := hcounter }⟩
  exact congrArg₂ List.cons hname h.hiddenNames

theorem shadow (name : String) : (slots.shadow name).Alike visible (slots'.shadow name) := by
  have hseen := h.bindings name
  unfold Slots.shadow
  cases hbinding : slots.bindings[name]? with
  | none =>
    rw [hbinding, Option.map_none, eq_comm, Option.map_eq_none_iff] at hseen
    rw [hseen]
    exact h
  | some binding =>
    rw [hbinding, Option.map_some, eq_comm, Option.map_eq_some_iff] at hseen
    obtain ⟨binding', hbinding', hsame⟩ := hseen
    have hdepth : binding'.depth = binding.depth := by
      simpa using congrArg Binding.depth hsame
    rw [hbinding']
    dsimp only
    by_cases hcurrent : binding.depth = slots.depth
    · rw [if_pos hcurrent, if_pos ((hdepth.trans hcurrent).trans h.depth)]
      exact h
    · have hcurrent' : binding'.depth ≠ slots'.depth := by rwa [hdepth, ← h.depth]
      rw [if_neg hcurrent, if_neg hcurrent']
      refine { h with shadowed := ?_ }
      simp only [List.map_cons, Shadow.seen, h.depth, hsame, h.shadowed]

theorem allocate {slot : UInt16}
    (hwidth : ty.width = ty'.width) (hty : visible name = true → ty = ty') :
    (slots.allocate name ty slot).Alike visible (slots'.allocate name ty' slot) := by
  refine { h with
    bindings := fun other => ?_
    frameSize := by rw [Slots.allocate, Slots.allocate, h.frameSize, hwidth]
    usedNames := congrArg (·.insert name) h.usedNames }
  rw [Slots.allocate, Slots.allocate, Std.TreeMap.getElem?_insert, Std.TreeMap.getElem?_insert,
    h.depth]
  split_ifs with hother
  · obtain rfl := Std.LawfulEqCmp.eq_of_compare hother
    cases hname : visible name with
    | true => rw [hty hname]
    | false => exact congrArg some (Binding.seen_eq_of_hidden hname)
  · exact h.bindings other

theorem declare (hname : visible name = true) :
    (slots.declare name ty).1 = (slots'.declare name ty).1 ∧
      (slots.declare name ty).2.Alike visible (slots'.declare name ty).2 := by
  have hshadow := h.shadow name
  unfold Slots.declare
  rw [h.redeclared? hname]
  cases slots'.redeclared? name ty with
  | some slot => exact ⟨rfl, h⟩
  | none =>
    dsimp only
    rw [hshadow.nextSlot]
    cases (slots'.shadow name).nextSlot with
    | ok slot => exact ⟨rfl, hshadow.allocate rfl fun _ => rfl⟩
    | error fault => exact ⟨rfl, hshadow⟩

/-- A variable of a new name gets the same slot, whichever of two types of the
same width it has, if it is a hidden one. -/
theorem declare_hidden (hname : visible name = false)
    (hnew : slots.bindings[name]? = none) (hwidth : ty.width = ty'.width) :
    (slots.declare name ty).1 = (slots'.declare name ty').1 ∧
      (slots.declare name ty).2.Alike visible (slots'.declare name ty').2 := by
  have hnew' : slots'.bindings[name]? = none := by
    have hseen := h.bindings name
    rwa [hnew, Option.map_none, eq_comm, Option.map_eq_none_iff] at hseen
  have hshadow := h.shadow name
  have hfirst : slots.redeclared? name ty = none := by rw [Slots.redeclared?, hnew]
  have hsecond : slots'.redeclared? name ty' = none := by rw [Slots.redeclared?, hnew']
  unfold Slots.declare
  rw [hfirst, hsecond]
  dsimp only
  rw [hshadow.nextSlot]
  cases (slots'.shadow name).nextSlot with
  | ok slot =>
    exact ⟨rfl, hshadow.allocate hwidth fun hvisible => by rw [hname] at hvisible; cases hvisible⟩
  | error fault => exact ⟨rfl, hshadow⟩

omit h in
/-- Putting back hidden bindings that look the same gives tables that look the same. -/
theorem restore {bindings bindings' : Std.TreeMap String Binding} {shadowed shadowed' : List Shadow}
    (hbindings : ∀ name : String, (bindings[name]?).map (Binding.seen visible name) =
      (bindings'[name]?).map (Binding.seen visible name))
    (hshadowed : shadowed.map (Shadow.seen visible) = shadowed'.map (Shadow.seen visible))
    (depth : Nat) :
    (∀ name : String,
      ((Slots.restore bindings depth shadowed).1[name]?).map (Binding.seen visible name) =
        ((Slots.restore bindings' depth shadowed').1[name]?).map (Binding.seen visible name)) ∧
      (Slots.restore bindings depth shadowed).2.map (Shadow.seen visible) =
        (Slots.restore bindings' depth shadowed').2.map (Shadow.seen visible) := by
  induction shadowed generalizing bindings bindings' shadowed' with
  | nil =>
    obtain rfl := List.map_eq_nil_iff.mp hshadowed.symm
    exact ⟨hbindings, rfl⟩
  | cons shadow rest ih =>
    obtain ⟨shadow', rest', rfl, hsame, hrest⟩ := List.map_eq_cons_iff.mp hshadowed.symm
    obtain ⟨hdepth, hname, hbinding⟩ := Shadow.mk.inj hsame
    rw [Slots.restore, Slots.restore, hdepth]
    split_ifs
    · refine ih (fun name => ?_) hrest.symm
      rw [Std.TreeMap.getElem?_insert, Std.TreeMap.getElem?_insert, hname]
      split_ifs with hother
      · obtain rfl := Std.LawfulEqCmp.eq_of_compare hother
        rw [hname] at hbinding
        exact congrArg some hbinding.symm
      · exact hbindings name
    · exact ⟨hbindings, hshadowed⟩

theorem popScope : slots.popScope.Alike visible slots'.popScope := by
  unfold Slots.popScope
  rw [← h.depth]
  split_ifs
  · exact h
  · have hvisible (name : String) :
        ((slots.bindings.filter fun _ binding => binding.depth < slots.depth)[name]?).map
            (Binding.seen visible name) =
          ((slots'.bindings.filter fun _ binding => binding.depth < slots.depth)[name]?).map
            (Binding.seen visible name) := by
      have hfilter (found : Option Binding) :
          (found.filter fun binding => binding.depth < slots.depth).map
              (Binding.seen visible name) =
            (found.map (Binding.seen visible name)).filter fun binding =>
              binding.depth < slots.depth := by
        cases found with
        | none => rfl
        | some binding => simp [Option.filter_some, apply_ite]
      rw [Std.TreeMap.getElem?_filter', Std.TreeMap.getElem?_filter', hfilter, hfilter,
        h.bindings]
    obtain ⟨hbindings, hshadowed⟩ := restore hvisible h.shadowed slots.depth
    exact { h with bindings := hbindings, shadowed := hshadowed, depth := rfl }

end

end Alike

end Slots

end StackLowering
