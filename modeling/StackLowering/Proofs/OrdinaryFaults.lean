import StackLowering.Proofs.Derivation
/-!
Faults of a tree. Types, arms and hash codes are refused for what is written in the tree.
The faults of handlers, which are about how trees are handed to them, do not arise there.
-/

namespace StackLowering

/-- The fault is about the tree, and not about how trees are handed to handlers or
about the labels they use. -/
def Fault.isOrdinary : Fault → Bool
  | unsupportedKind .. | mismatchedTree .. | unsettled _ | unboundLabel _ => false
  | _ => true

/-- Where this fails, it does so with one of these faults. -/
def FailsWith {α : Type} (faults : Fault → Prop) (outcome : Except Fault α) : Prop :=
  ∀ fault, outcome = .error fault → faults fault

/-- Where this fails, it does so with an ordinary fault. -/
abbrev Ordinary {α : Type} : Except Fault α → Prop := FailsWith (·.isOrdinary = true)

namespace FailsWith

variable {α β : Type} {faults : Fault → Prop} {outcome : Except Fault α}

theorem ok (value : α) : FailsWith faults (.ok value) := fun _ h => by cases h

theorem error {fault : Fault} (h : faults fault) :
    FailsWith faults (.error fault : Except Fault α) := by
  rintro _ ⟨⟩
  exact h

theorem bind {next : α → Except Fault β} (h : FailsWith faults outcome)
    (hnext : ∀ value, FailsWith faults (next value)) : FailsWith faults (outcome >>= next) := by
  cases outcome with
  | error fault => exact .error (h fault rfl)
  | ok value => exact hnext value

theorem mapM {f : β → Except Fault α} {items : List β}
    (h : ∀ item ∈ items, FailsWith faults (f item)) : FailsWith faults (items.mapM f) := by
  induction items with
  | nil => exact .ok []
  | cons item rest ih =>
    obtain ⟨hitem, hrest⟩ := List.forall_mem_cons.mp h
    rw [List.mapM_cons]
    exact hitem.bind fun _ => (ih hrest).bind fun _ => .ok _

theorem foldlM {f : α → β → Except Fault α} {items : List β}
    (h : ∀ item ∈ items, ∀ value, FailsWith faults (f value item)) (value : α) :
    FailsWith faults (items.foldlM f value) := by
  induction items generalizing value with
  | nil => exact .ok value
  | cons item rest ih =>
    obtain ⟨hitem, hrest⟩ := List.forall_mem_cons.mp h
    exact (hitem value).bind (ih hrest)

end FailsWith

theorem Nest.ordinary_resolve (nest : Nest) (current ty : Ty) :
    Ordinary (nest.resolve current ty) := by
  induction ty with
  | symbolic role =>
    unfold resolve resolveRole
    dsimp only
    split
    · exact .ok _
    · exact .error rfl
  | array element ih => exact ih.bind fun _ => .ok _
  | _ => exact .ok _

theorem Nest.ordinary_resolveAll (nest : Nest) (current : Ty) (types : List Ty) :
    Ordinary (nest.resolveAll current types) :=
  .mapM fun ty _ => nest.ordinary_resolve current ty

theorem Nest.ordinary_resolveSignature (nest : Nest) (current : Ty) (signature : Signature) :
    Ordinary (nest.resolveSignature current signature) :=
  (nest.ordinary_resolve current _).bind fun _ =>
    (nest.ordinary_resolveAll current _).bind fun _ => .ok _

namespace Switch

theorem ordinary_armKey (value : Tree) : Ordinary (armKey value) := by
  unfold armKey
  split
  · exact .ok _
  · exact .ok _
  · exact .ok _
  · exact .ok _
  · split_ifs
    · exact .ok _
    · exact .error rfl
  · exact .error rfl

theorem ordinary_splitArms (switch : Tree) (found : Option Tree) (arms : List Arm) :
    Ordinary (splitArms switch found arms) := by
  fun_induction splitArms switch found arms with
  | case1 => exact .ok _
  | case2 => exact .error rfl
  | case3 _ _ _ _ ih => exact ih
  | case4 _ value _ _ ih => exact (ordinary_armKey value).bind fun _ => ih.bind fun _ => .ok _

theorem ordinary_collectArms (switch : Tree) (arms : List Arm) :
    Ordinary (collectArms switch arms) := by
  refine (ordinary_splitArms switch none arms).bind fun split => ?_
  dsimp only
  split
  · exact .error rfl
  · exact .ok _

theorem ordinary_hashValues (seen : List Literal) (values : List Tree) :
    Ordinary (hashValues seen values) := by
  fun_induction hashValues seen values with
  | case1 => exact .ok _
  | case4 _ _ _ _ _ _ ih => exact ih.bind fun _ => .ok _
  | _ => exact .error rfl

theorem ordinary_bucketsOf (buckets : List Bucket) (seen : List Literal) (groups : List Group) :
    Ordinary (bucketsOf buckets seen groups) := by
  induction groups generalizing buckets seen with
  | nil => exact .ok _
  | cons group rest ih => exact (ordinary_hashValues seen _).bind fun _ => ih _ _

theorem ordinary_hashed {kind : SwitchKind} {label : Option String} {subject : Tree}
    {arms : List Arm} {ty : Ty} {name : String} :
    Ordinary (hashed kind label subject arms ty name) :=
  (ordinary_bucketsOf [] [] _).bind fun _ => .ok _

end Switch

theorem Slots.ordinary_declare (slots : Slots) (name : String) (ty : Ty) :
    Ordinary (slots.declare name ty).1 := by
  unfold declare
  split
  · exact .ok _
  · dsimp only
    unfold nextSlot
    split_ifs
    · exact .ok _
    · exact .error rfl

theorem Slots.ordinary_require (slots : Slots) (name : String) (ty : Ty) (tree : Tree) :
    Ordinary ((slots.require name ty).mapError (·.withTree tree)) := by
  unfold require
  split
  · split_ifs
    · exact .ok _
    · exact .error rfl
  · exact .error rfl

/-- A label is used where a jump or switch goes to it or a region is given by it. -/
def Assembler.Uses (asm : Assembler) (label : Label) : Prop :=
  (∃ fixup ∈ asm.fixups.toList, fixup.label = label) ∨
    ∃ region ∈ asm.regions.toList, label ∈ region.labels

/-- A routine cannot be finished if a label is used that has no position, or for an
ordinary fault. -/
theorem State.failsWith_finish (s : State) : FailsWith (fun fault => fault.isOrdinary = true ∨
    ∃ label, s.assembler.Uses label ∧ s.assembler.position? label = none ∧
      fault = .unboundLabel label.id) s.finish := by
  refine FailsWith.bind ?_ fun _ => .ok _
  have hposition {label : Label} (huses : s.assembler.Uses label) :
      FailsWith (fun fault => fault.isOrdinary = true ∨ ∃ label, s.assembler.Uses label ∧
        s.assembler.position? label = none ∧ fault = .unboundLabel label.id)
        (s.assembler.requirePosition label) := by
    unfold Assembler.requirePosition
    split
    · exact .ok _
    · rename_i hnone
      exact .error (.inr ⟨label, huses, hnone, rfl⟩)
  unfold Assembler.finish
  cases s.assembler.overflow with
  | some overflow => exact .error (.inl rfl)
  | none =>
    refine (FailsWith.foldlM (fun fixup hfixup chunk => ?_) _).bind fun _ =>
      (FailsWith.mapM fun region hregion => ?_).bind fun _ => .ok _
    · refine (hposition (.inl ⟨fixup, hfixup, rfl⟩)).bind fun target => ?_
      dsimp only
      split_ifs
      · exact .ok _
      · exact .error (.inl rfl)
    · have hlabel {label : Label} (hmem : label ∈ region.labels) :=
        hposition (.inr ⟨region, hregion, hmem⟩)
      exact (hlabel (by simp [Region.labels])).bind fun _ =>
        (hlabel (by simp [Region.labels])).bind fun _ =>
          (hlabel (by simp [Region.labels])).bind fun _ => .ok _

end StackLowering
