import Mathlib
import StackLowering.Nest
/-!
The order of a nest. A type is only added to a nest after the type it is nested
in, so the walk from a member outwards goes to members added before it. That is
why it ends, whatever types are declared outside the nest under whatever names.
-/

namespace StackLowering

variable {name : String}

theorem Ty.objectName?_eq_some {ty : Ty} :
    ty.objectName? = some name ↔ ty = .object name := by
  cases ty <;> simp [objectName?]

/-- A call that declares a type to a nest. -/
inductive Registration where
  | member (decl : TypeDecl)
  | external (decl : TypeDecl)

namespace Nest

def answer (nest : Nest) : Registration → Except NestFault Nest
  | .member decl => nest.addType decl
  | .external decl => nest.addExternal decl

/-- The nest after a call, which may have been rejected. -/
def register (nest : Nest) (call : Registration) : Nest :=
  (nest.answer call).toOption.getD nest

/-- The nest after calls on a new one. -/
def registered (calls : List Registration) : Nest := calls.foldl register .empty

/-- Members are different named types, each added after the named type around it. -/
structure Ordered (members : List TypeDecl) : Prop where
  named : ∀ decl ∈ members, ∃ name, decl.ty = .object name
  distinct : (members.map TypeDecl.ty).Nodup
  outer : ∀ {i : Nat} {decl : TypeDecl} {name : String}, members[i]? = some decl →
    decl.outer = some (.object name) →
      ∃ j < i, ∃ inner, members[j]? = some inner ∧ inner.ty = .object name

/-- The walk outwards from the member at a position. It reads the declarations of
members only, each at a lower position than the last, and ends at a member that
is nested in nothing or at a type that has no name. -/
inductive Walks (members : List TypeDecl) : Nat → List Ty → Prop
  | top {i : Nat} {decl : TypeDecl} (hdecl : members[i]? = some decl)
      (houter : decl.outer = none) : Walks members i []
  | unnamed {i : Nat} {decl : TypeDecl} {outer : Ty} (hdecl : members[i]? = some decl)
      (houter : decl.outer = some outer) (hname : outer.objectName? = none) :
      Walks members i [outer]
  | inside {i j : Nat} {decl inner : TypeDecl} {chain : List Ty}
      (hdecl : members[i]? = some decl) (hinner : members[j]? = some inner)
      (houter : decl.outer = some inner.ty) (hlt : j < i) (hrest : Walks members j chain) :
      Walks members i (inner.ty :: chain)

section Members

variable {nest : Nest} {decl : TypeDecl} {i : Nat}

namespace Ordered

theorem name_of_ty (h : decl.ty = .object name) : decl.name = name := by
  rw [TypeDecl.name, h]
  rfl

theorem hasMember_iff (h : Ordered nest.members) :
    nest.hasMember name = true ↔ .object name ∈ nest.members.map TypeDecl.ty := by
  rw [hasMember, findNamed, List.find?_isSome, List.mem_map]
  refine exists_congr fun decl => and_congr_right fun hmem => ?_
  obtain ⟨other, hother⟩ := h.named decl hmem
  rw [beq_iff_eq, name_of_ty hother, hother, Ty.object.injEq]

theorem contains_iff (h : Ordered nest.members) (ty : Ty) :
    nest.contains ty = true ↔ ty ∈ nest.members.map TypeDecl.ty := by
  cases hname : ty.objectName? with
  | some name =>
    rw [contains, hname, h.hasMember_iff, Ty.objectName?_eq_some.mp hname]
  | none =>
    rw [contains, hname]
    refine iff_of_false Bool.false_ne_true fun hmem => ?_
    obtain ⟨decl, hdecl, rfl⟩ := List.mem_map.mp hmem
    obtain ⟨name, hty⟩ := h.named decl hdecl
    rw [hty] at hname
    cases hname

/-- A member is found under its name, and no type outside the nest is. -/
theorem get?_eq (h : Ordered nest.members) (hdecl : nest.members[i]? = some decl) :
    nest.get? decl.ty = some decl := by
  have hmem := List.mem_of_getElem? hdecl
  obtain ⟨name, hname⟩ := h.named decl hmem
  have hfound : findNamed nest.members name = some decl := by
    cases hfind : findNamed nest.members name with
    | none =>
      have hnone := List.find?_eq_none.mp hfind decl hmem
      rw [name_of_ty hname, beq_self_eq_true] at hnone
      exact (hnone rfl).elim
    | some other =>
      have hother := List.mem_of_find?_eq_some hfind
      have hsame := List.find?_some hfind
      obtain ⟨name', hname'⟩ := h.named other hother
      rw [beq_iff_eq, name_of_ty hname'] at hsame
      subst hsame
      exact congrArg some (List.inj_on_of_nodup_map h.distinct hother hmem (hname'.trans hname.symm))
  rw [get?, hname]
  exact congrArg (Option.or · _) hfound

theorem outer?_eq (h : Ordered nest.members) (hdecl : nest.members[i]? = some decl) :
    nest.outer? decl.ty = decl.outer := by
  rw [outer?, h.get?_eq hdecl]
  rfl

theorem empty : Ordered [] := ⟨nofun, .nil, nofun⟩

/-- One more member, nested in no named type or in a member. -/
theorem concat (h : Ordered nest.members) (hty : decl.ty = .object name)
    (hnew : nest.hasMember name = false)
    (houter : ∀ outer, decl.outer = some (.object outer) → nest.hasMember outer = true) :
    Ordered (nest.members ++ [decl]) where
  named other hmem := by
    rcases List.mem_append.mp hmem with hmem | hmem
    · exact h.named other hmem
    · rw [List.mem_singleton.mp hmem]
      exact ⟨name, hty⟩
  distinct := by
    rw [List.map_append, List.map_singleton, hty, List.nodup_append]
    refine ⟨h.distinct, List.nodup_singleton _, fun ty hmem other hother => ?_⟩
    rintro rfl
    rw [List.mem_singleton.mp hother, ← h.hasMember_iff, hnew] at hmem
    cases hmem
  outer {i other outer} hdecl hother := by
    rcases Nat.lt_or_ge i nest.members.length with hlt | hge
    · rw [List.getElem?_append_left hlt] at hdecl
      obtain ⟨j, hj, inner, hinner, hname⟩ := h.outer hdecl hother
      exact ⟨j, hj, inner, (List.getElem?_append_left (hj.trans hlt)).trans hinner, hname⟩
    · have hlast : other = decl := by
        rw [List.getElem?_append_right hge] at hdecl
        exact List.mem_singleton.mp (List.mem_of_getElem? hdecl)
      subst hlast
      obtain ⟨inner, hinner, hname⟩ := List.mem_map.mp (h.hasMember_iff.mp (houter outer hother))
      obtain ⟨j, hj⟩ := List.mem_iff_getElem?.mp hinner
      have hlt := (List.getElem?_eq_some_iff.mp hj).1
      exact ⟨j, hlt.trans_le hge, inner, (List.getElem?_append_left hlt).trans hj, hname⟩

theorem addType (h : Ordered nest.members) {after : Nest} (hadd : nest.addType decl = .ok after) :
    Ordered after.members := by
  unfold Nest.addType at hadd
  split at hadd
  · cases hadd
  · rename_i name hname
    have hty := Ty.objectName?_eq_some.mp hname
    split_ifs at hadd with hnew
    have hnew := Bool.eq_false_of_not_eq_true hnew
    split at hadd
    · rename_i outer houter
      split_ifs at hadd with hmember
      cases hadd
      refine h.concat hty hnew fun other hother => ?_
      rw [hother] at houter
      cases houter
      exact hmember
    · rename_i houter
      cases hadd
      refine h.concat hty hnew fun other hother => ?_
      rw [hother] at houter
      cases houter

theorem addExternal (h : Ordered nest.members) {after : Nest}
    (hadd : nest.addExternal decl = .ok after) : Ordered after.members := by
  unfold Nest.addExternal at hadd
  split at hadd
  · cases hadd
  · split_ifs at hadd
    cases hadd
    exact h

theorem register (h : Ordered nest.members) (call : Registration) :
    Ordered (nest.register call).members := by
  cases hanswer : nest.answer call with
  | error fault =>
    rw [Nest.register, hanswer]
    exact h
  | ok after =>
    rw [Nest.register, hanswer]
    cases call with
    | member decl => exact h.addType hanswer
    | external decl => exact h.addExternal hanswer

theorem registered (calls : List Registration) : Ordered (registered calls).members := by
  induction calls using List.reverseRecOn with
  | nil => exact empty
  | append_singleton calls call ih =>
    rw [Nest.registered, List.foldl_append]
    exact ih.register call

/-- By the order of the members, there is a walk from each of them. -/
theorem exists_walks (h : Ordered nest.members) (hdecl : nest.members[i]? = some decl) :
    ∃ chain, Walks nest.members i chain := by
  induction i using Nat.strong_induction_on generalizing decl with
  | h i ih =>
    cases houter : decl.outer with
    | none => exact ⟨[], .top hdecl houter⟩
    | some outer =>
      cases hname : outer.objectName? with
      | none => exact ⟨[outer], .unnamed hdecl houter hname⟩
      | some name =>
        obtain rfl := Ty.objectName?_eq_some.mp hname
        obtain ⟨j, hj, inner, hinner, hty⟩ := h.outer hdecl houter
        obtain ⟨chain, hchain⟩ := ih j hj hinner
        exact ⟨_, .inside hdecl hinner (houter.trans (congrArg some hty.symm)) hj hchain⟩

end Ordered

namespace Walks

variable {chain : List Ty}

theorem climb_eq (hwalks : Walks nest.members i chain) (h : Ordered nest.members)
    (hdecl : nest.members[i]? = some decl) {steps : Nat} (hsteps : i < steps) :
    nest.climb steps decl.ty = chain := by
  obtain ⟨steps, rfl⟩ := Nat.exists_eq_add_one_of_ne_zero (Nat.ne_zero_of_lt hsteps)
  induction hwalks generalizing decl steps with
  | top hfirst houter =>
    cases hfirst.symm.trans hdecl
    rw [climb, h.outer?_eq hdecl, houter]
  | @unnamed _ _ outer hfirst houter hname =>
    cases hfirst.symm.trans hdecl
    have hunknown : nest.outer? outer = none := by
      rw [outer?, get?, hname]
      rfl
    rw [climb, h.outer?_eq hdecl, houter]
    cases steps with
    | zero => rfl
    | succ steps => simp only [climb, hunknown]
  | inside hfirst hinner houter hlt _ ih =>
    cases hfirst.symm.trans hdecl
    obtain ⟨rest, rfl⟩ := Nat.exists_eq_add_one_of_ne_zero (show steps ≠ 0 by omega)
    rw [climb, h.outer?_eq hdecl, houter]
    exact congrArg (List.cons _) (ih hinner rest (by omega))

theorem enclosing_eq (hwalks : Walks nest.members i chain) (h : Ordered nest.members)
    (hdecl : nest.members[i]? = some decl) : nest.enclosing decl.ty = chain := by
  have hlt := (List.getElem?_eq_some_iff.mp hdecl).1
  exact hwalks.climb_eq h hdecl (Nat.lt_add_right _ hlt)

/-- Members at lower positions, and at most one type without a name at the end. -/
theorem split (hwalks : Walks nest.members i chain) :
    ∃ earlier rest, chain = earlier ++ rest ∧ rest.length ≤ 1 ∧
      (∀ ty ∈ earlier, ∃ j < i, (nest.members.map TypeDecl.ty)[j]? = some ty) ∧
      ∀ ty ∈ rest, ty.objectName? = none := by
  induction hwalks with
  | top => exact ⟨[], [], rfl, Nat.zero_le _, nofun, nofun⟩
  | unnamed _ _ hname => exact ⟨[], [_], rfl, Nat.le_refl _, nofun, List.forall_mem_singleton.mpr hname⟩
  | @inside _ j _ inner _ _ hinner _ hlt _ ih =>
    obtain ⟨earlier, rest, rfl, hlength, hearlier, hrest⟩ := ih
    have hty : (nest.members.map TypeDecl.ty)[j]? = some inner.ty := by
      rw [List.getElem?_map, hinner]
      rfl
    refine ⟨inner.ty :: earlier, rest, rfl, hlength, ?_, hrest⟩
    refine List.forall_mem_cons.mpr ⟨⟨j, hlt, hty⟩, fun ty hmem => ?_⟩
    obtain ⟨k, hk, hfound⟩ := hearlier ty hmem
    exact ⟨k, hk.trans hlt, hfound⟩

theorem nodup (hwalks : Walks nest.members i chain) (h : Ordered nest.members) :
    chain.Nodup := by
  induction hwalks with
  | top => exact .nil
  | unnamed => exact List.nodup_singleton _
  | @inside _ j _ inner chain _ hinner _ _ hrest ih =>
    refine List.nodup_cons.mpr ⟨fun hmem => ?_, ih⟩
    -- The rest of the walk is among the members before this one.
    obtain ⟨earlier, rest, rfl, _, hearlier, hunnamed⟩ := hrest.split
    rcases List.mem_append.mp hmem with hmem | hmem
    · obtain ⟨k, hk, hfound⟩ := hearlier _ hmem
      have hty : (nest.members.map TypeDecl.ty)[j]? = some inner.ty := by
        rw [List.getElem?_map, hinner]
        rfl
      have hlt := (List.getElem?_eq_some_iff.mp hty).1
      have hsame := (List.getElem?_inj hlt h.distinct).mp (hty.trans hfound.symm)
      omega
    · obtain ⟨name, hname⟩ := h.named inner (List.mem_of_getElem? hinner)
      have hnone := hunnamed _ hmem
      rw [hname] at hnone
      cases hnone

/-- Every type on a walk that ends at a member has that member outermost. -/
theorem outermost_eq (hwalks : Walks nest.members i chain) (h : Ordered nest.members) {last : Ty}
    (hlast : chain.getLast? = some last) (hnamed : last.objectName? ≠ none) :
    ∀ ty ∈ chain, nest.outermost ty = last := by
  induction hwalks with
  | top => exact nofun
  | unnamed _ _ hname =>
    cases hlast
    exact (hnamed hname).elim
  | @inside _ _ _ inner chain _ hinner _ _ hrest ih =>
    rw [List.getLast?_cons] at hlast
    refine List.forall_mem_cons.mpr ⟨?_, fun ty hmem => ?_⟩
    · rw [outermost, hrest.enclosing_eq h hinner]
      exact Option.some.inj hlast
    · apply ih _ ty hmem
      obtain ⟨other, hother⟩ := Option.isSome_iff_exists.mp
        (List.getLast?_isSome.mpr (List.ne_nil_of_mem hmem))
      rw [hother] at hlast ⊢
      exact hlast

end Walks

end Members

/-- After any calls, accepted or rejected, the members are listed once each, and
the types around a member are members added before it. -/
theorem registered_invariant (calls : List Registration) :
    let nest := registered calls
    (∀ call fault, nest.answer call = .error fault → nest.register call = nest) ∧
    (nest.members.map TypeDecl.ty).Nodup ∧
    (∀ ty, nest.contains ty = true ↔ ty ∈ nest.members.map TypeDecl.ty) ∧
    ∀ (i : Nat) (decl : TypeDecl), nest.members[i]? = some decl →
      Walks nest.members i (nest.enclosing decl.ty) ∧ (nest.enclosing decl.ty).Nodup ∧
      (∃ earlier rest, nest.enclosing decl.ty = earlier ++ rest ∧ rest.length ≤ 1 ∧
        (∀ ty ∈ earlier, ∃ j < i, (nest.members.map TypeDecl.ty)[j]? = some ty) ∧
        ∀ ty ∈ rest, ty.objectName? = none) ∧
      ∀ last, (nest.enclosing decl.ty).getLast? = some last → nest.contains last = true →
        nest.outermost decl.ty = last ∧
          ∀ ty ∈ nest.enclosing decl.ty, nest.outermost ty = nest.outermost decl.ty := by
  intro nest
  have h : Ordered nest.members := .registered calls
  refine ⟨fun call fault hfault => ?_, h.distinct, h.contains_iff, fun i decl hdecl => ?_⟩
  · rw [register, hfault]
    rfl
  · obtain ⟨chain, hwalks⟩ := h.exists_walks hdecl
    rw [hwalks.enclosing_eq h hdecl]
    refine ⟨hwalks, hwalks.nodup h, hwalks.split, fun last hlast hmember => ?_⟩
    have hnamed : last.objectName? ≠ none := by
      intro hname
      rw [contains, hname] at hmember
      cases hmember
    have houtermost : nest.outermost decl.ty = last := by
      rw [outermost, hwalks.enclosing_eq h hdecl, hlast]
      rfl
    rw [houtermost]
    exact ⟨rfl, hwalks.outermost_eq h hlast hnamed⟩

end Nest

end StackLowering
