import StackLowering.Proofs.Derivation
/-!
What holds of a tree and of everything in it.
-/

namespace StackLowering.Tree

variable {p q : Tree → Prop} {tree : Tree}

theorem size_lt_of_mem_children {part : Tree} (h : part ∈ tree.children) :
    part.size < tree.size := by
  have hchildren := sizeList_children_lt tree
  obtain ⟨before, after, heq⟩ := List.append_of_mem h
  rw [heq, sizeList_append, sizeList] at hchildren
  omega

@[elab_as_elim]
theorem induction_children {motive : Tree → Prop}
    (h : ∀ tree, (∀ part ∈ tree.children, motive part) → motive tree) (tree : Tree) :
    motive tree := by
  induction hsize : tree.size using Nat.strong_induction_on generalizing tree with
  | _ size ih =>
    subst hsize
    exact h tree fun part hpart => ih part.size (size_lt_of_mem_children hpart) part rfl

/-- The property holds of the tree and of everything in it. -/
inductive Everywhere (p : Tree → Prop) : Tree → Prop
  | intro {tree : Tree} (here : p tree) (below : ∀ part ∈ tree.children, Everywhere p part) :
      Everywhere p tree

theorem everywhere_iff :
    tree.Everywhere p ↔ p tree ∧ ∀ part ∈ tree.children, part.Everywhere p := by
  constructor
  · rintro ⟨here, below⟩
    exact ⟨here, below⟩
  · rintro ⟨here, below⟩
    exact ⟨here, below⟩

theorem Everywhere.of_forall (h : ∀ tree, p tree) (tree : Tree) : tree.Everywhere p := by
  induction tree using induction_children with
  | _ tree ih => exact .intro (h tree) ih

theorem Everywhere.mono (h : tree.Everywhere p) (hpq : ∀ part, p part → q part) :
    tree.Everywhere q := by
  induction h with
  | intro here _ ih => exact .intro (hpq _ here) ih

theorem everywhere_iff_leaf (h : tree.children = []) : tree.Everywhere p ↔ p tree := by
  rw [everywhere_iff, h]
  exact and_iff_left (List.forall_mem_nil _)

theorem everywhere_iff_operand {operand : Tree} (h : tree.children = [operand]) :
    tree.Everywhere p ↔ p tree ∧ operand.Everywhere p := by
  rw [everywhere_iff, h, List.forall_mem_singleton]

theorem everywhere_iff_operands {left right : Tree} (h : tree.children = [left, right]) :
    tree.Everywhere p ↔ p tree ∧ left.Everywhere p ∧ right.Everywhere p := by
  rw [everywhere_iff, h, List.forall_mem_cons, List.forall_mem_singleton]

section Shapes

variable {name : String} {ty : Ty} {trees : List Tree} {value : Option Tree}
  {operand left right : Tree} {label : Option String}

@[simp]
theorem everywhere_literal {value : Literal} :
    (literal value).Everywhere p ↔ p (literal value) := everywhere_iff_leaf rfl

@[simp]
theorem everywhere_self : self.Everywhere p ↔ p self := everywhere_iff_leaf rfl

@[simp]
theorem everywhere_dup : (dup ty).Everywhere p ↔ p (dup ty) := everywhere_iff_leaf rfl

@[simp]
theorem everywhere_redirect : redirect.Everywhere p ↔ p redirect := everywhere_iff_leaf rfl

@[simp]
theorem everywhere_breakTo : (breakTo label).Everywhere p ↔ p (breakTo label) :=
  everywhere_iff_leaf rfl

@[simp]
theorem everywhere_readLocal : (readLocal name ty).Everywhere p ↔ p (readLocal name ty) :=
  everywhere_iff_leaf rfl

@[simp]
theorem everywhere_assignLocal : (assignLocal name ty operand).Everywhere p ↔
    p (assignLocal name ty operand) ∧ operand.Everywhere p :=
  everywhere_iff_operand rfl

@[simp]
theorem everywhere_not : (not operand).Everywhere p ↔ p (not operand) ∧ operand.Everywhere p :=
  everywhere_iff_operand rfl

@[simp]
theorem everywhere_cast :
    (cast ty operand).Everywhere p ↔ p (cast ty operand) ∧ operand.Everywhere p :=
  everywhere_iff_operand rfl

@[simp]
theorem everywhere_arrayLength :
    (arrayLength operand).Everywhere p ↔ p (arrayLength operand) ∧ operand.Everywhere p :=
  everywhere_iff_operand rfl

@[simp]
theorem everywhere_monitorEnter :
    (monitorEnter operand).Everywhere p ↔ p (monitorEnter operand) ∧ operand.Everywhere p :=
  everywhere_iff_operand rfl

@[simp]
theorem everywhere_monitorExit :
    (monitorExit operand).Everywhere p ↔ p (monitorExit operand) ∧ operand.Everywhere p :=
  everywhere_iff_operand rfl

@[simp]
theorem everywhere_arith {op : ArithOp} : (arith op ty left right).Everywhere p ↔
    p (arith op ty left right) ∧ left.Everywhere p ∧ right.Everywhere p :=
  everywhere_iff_operands rfl

@[simp]
theorem everywhere_compare {op : CompareOp} : (compare op left right).Everywhere p ↔
    p (compare op left right) ∧ left.Everywhere p ∧ right.Everywhere p :=
  everywhere_iff_operands rfl

@[simp]
theorem everywhere_logical {op : LogicalOp} : (logical op left right).Everywhere p ↔
    p (logical op left right) ∧ left.Everywhere p ∧ right.Everywhere p :=
  everywhere_iff_operands rfl

@[simp]
theorem everywhere_arrayLoad : (arrayLoad left right ty).Everywhere p ↔
    p (arrayLoad left right ty) ∧ left.Everywhere p ∧ right.Everywhere p :=
  everywhere_iff_operands rfl

@[simp]
theorem everywhere_block :
    (block trees).Everywhere p ↔ p (block trees) ∧ ∀ part ∈ trees, part.Everywhere p :=
  everywhere_iff

@[simp]
theorem everywhere_create {params : List Ty} : (create ty params trees).Everywhere p ↔
    p (create ty params trees) ∧ ∀ part ∈ trees, part.Everywhere p :=
  everywhere_iff

@[simp]
theorem everywhere_declareLocal : (declareLocal name ty value).Everywhere p ↔
    p (declareLocal name ty value) ∧ ∀ part ∈ value, part.Everywhere p := by
  simp [@everywhere_iff p (declareLocal name ty value), children]

@[simp]
theorem everywhere_readField {owner : Ty} : (readField owner name ty value).Everywhere p ↔
    p (readField owner name ty value) ∧ ∀ part ∈ value, part.Everywhere p := by
  simp [@everywhere_iff p (readField owner name ty value), children]

@[simp]
theorem everywhere_invoke {kind : InvokeKind} {owner : Ty} {method : Signature} :
    (invoke kind owner method value trees).Everywhere p ↔
      p (invoke kind owner method value trees) ∧ (∀ part ∈ value, part.Everywhere p) ∧
        ∀ part ∈ trees, part.Everywhere p := by
  simp [@everywhere_iff p (invoke kind owner method value trees), children, or_imp,
    forall_and]

@[simp]
theorem everywhere_branch {condition body : Tree} :
    (branch condition body value).Everywhere p ↔ p (branch condition body value) ∧
      condition.Everywhere p ∧ body.Everywhere p ∧ ∀ part ∈ value, part.Everywhere p := by
  simp [@everywhere_iff p (branch condition body value), children]

@[simp]
theorem everywhere_forLoop {update : List Tree} {body : Tree} :
    (forLoop label trees value update body).Everywhere p ↔
      p (forLoop label trees value update body) ∧ (∀ part ∈ trees, part.Everywhere p) ∧
        (∀ part ∈ value, part.Everywhere p) ∧ body.Everywhere p ∧
          ∀ part ∈ update, part.Everywhere p := by
  simp [@everywhere_iff p (forLoop label trees value update body), children, or_imp,
    forall_and]

theorem forall_trees_iff {arms : List Arm} :
    (∀ part ∈ arms.flatMap ArmOf.trees, p part) ↔
      ∀ arm ∈ arms, (∀ part ∈ arm.value, p part) ∧ p arm.body := by
  simp only [List.mem_flatMap, ArmOf.trees, List.mem_append, Option.mem_toList,
    List.mem_singleton]
  constructor
  · intro h arm harm
    exact ⟨fun part hpart => h part ⟨arm, harm, .inl hpart⟩, h arm.body ⟨arm, harm, .inr rfl⟩⟩
  · rintro h part ⟨arm, harm, hpart | rfl⟩
    · exact (h arm harm).1 part hpart
    · exact (h arm harm).2

theorem everywhere_switch {kind : SwitchKind} {subject : Tree} {arms : List Arm} :
    (switch label kind subject arms).Everywhere p ↔ p (switch label kind subject arms) ∧
      subject.Everywhere p ∧
        ∀ arm ∈ arms, (∀ part ∈ arm.value, part.Everywhere p) ∧ arm.body.Everywhere p := by
  rw [everywhere_iff, ← forall_trees_iff]
  exact and_congr_right fun _ => List.forall_mem_cons

@[simp]
theorem everywhere_guarded {body : Tree} {catches : List Catch} :
    (guarded body catches value).Everywhere p ↔ p (guarded body catches value) ∧
      body.Everywhere p ∧ (∀ clause ∈ catches, clause.body.Everywhere p) ∧
        ∀ part ∈ value, part.Everywhere p := by
  simp [@everywhere_iff p (guarded body catches value), children, or_imp, forall_and]

end Shapes

end StackLowering.Tree
