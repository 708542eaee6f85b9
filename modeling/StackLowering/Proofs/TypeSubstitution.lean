import Mathlib
import StackLowering.Proofs.Binders
/-!
Replacing the types in a tree. The shape of the tree stays the same: its size, the
variables it mentions and everything that lowering asks about the shape do not
depend on the types. Routines declared in the tree are left alone.
-/

namespace StackLowering

def Literal.mapTypes (f : Ty → Ty) : Literal → Literal
  | classOf ty => classOf (f ty)
  | literal => literal

def Signature.mapTypes (f : Ty → Ty) (signature : Signature) : Signature :=
  ⟨signature.name, f signature.result, signature.params.map f⟩

namespace Tree

mutual

/-- Replace every type that is written in the tree. -/
def mapTypes (f : Ty → Ty) : Tree → Tree
  | literal value => literal (value.mapTypes f)
  | self => self
  | dup ty => dup (f ty)
  | nothing => nothing
  | block trees => block (mapTypesList f trees)
  | readLocal name ty => readLocal name (f ty)
  | declareLocal name ty value => declareLocal name (f ty) (mapTypesOption f value)
  | assignLocal name ty value => assignLocal name (f ty) (mapTypes f value)
  | readField owner name ty receiver =>
    readField (f owner) name (f ty) (mapTypesOption f receiver)
  | writeField owner name ty receiver value =>
    writeField (f owner) name (f ty) (mapTypesOption f receiver) (mapTypes f value)
  | invoke kind owner method receiver args =>
    invoke kind (f owner) (method.mapTypes f) (mapTypesOption f receiver) (mapTypesList f args)
  | create ty params args => create (f ty) (params.map f) (mapTypesList f args)
  | enumConstant ty name => enumConstant (f ty) name
  | arith op ty left right => arith op (f ty) (mapTypes f left) (mapTypes f right)
  | compare op left right => compare op (mapTypes f left) (mapTypes f right)
  | logical op left right => logical op (mapTypes f left) (mapTypes f right)
  | not operand => not (mapTypes f operand)
  | cast target value => cast (f target) (mapTypes f value)
  | instanceOf ty value => instanceOf (f ty) (mapTypes f value)
  | arrayLength array => arrayLength (mapTypes f array)
  | arrayLoad array index ty => arrayLoad (mapTypes f array) (mapTypes f index) (f ty)
  | arrayStore array index value =>
    arrayStore (mapTypes f array) (mapTypes f index) (mapTypes f value)
  | newArray element length => newArray (f element) (mapTypes f length)
  | branch condition body otherwise =>
    branch (mapTypes f condition) (mapTypes f body) (mapTypesOption f otherwise)
  | forLoop label init condition update body =>
    forLoop label (mapTypesList f init) (mapTypesOption f condition) (mapTypesList f update)
      (mapTypes f body)
  | whileLoop label condition body bodyFirst =>
    whileLoop label (mapTypes f condition) (mapTypes f body) bodyFirst
  | forEach label binder ty iteration source body =>
    forEach label binder (f ty) iteration (mapTypes f source) (mapTypes f body)
  | switch label kind subject arms => switch label kind (mapTypes f subject) (mapTypesArms f arms)
  | synchronized lock body => synchronized (mapTypes f lock) (mapTypes f body)
  | guarded body catches cleanup =>
    guarded (mapTypes f body) (mapTypesCatches f catches) (mapTypesOption f cleanup)
  | raise value => raise (mapTypes f value)
  | ret value => ret (mapTypesOption f value)
  | breakTo label => breakTo label
  | continueTo label => continueTo label
  | monitorEnter value => monitorEnter (mapTypes f value)
  | monitorExit value => monitorExit (mapTypes f value)
  | redirect => redirect
  | localRoutine decl => localRoutine decl

def mapTypesOption (f : Ty → Ty) : Option Tree → Option Tree
  | none => none
  | some tree => some (mapTypes f tree)

def mapTypesList (f : Ty → Ty) : List Tree → List Tree
  | [] => []
  | tree :: rest => mapTypes f tree :: mapTypesList f rest

def mapTypesArms (f : Ty → Ty) : List (ArmOf Tree) → List (ArmOf Tree)
  | [] => []
  | ⟨value, body⟩ :: rest => ⟨mapTypesOption f value, mapTypes f body⟩ :: mapTypesArms f rest

def mapTypesCatches (f : Ty → Ty) : List (CatchOf Tree) → List (CatchOf Tree)
  | [] => []
  | ⟨ty, binder, body⟩ :: rest => ⟨f ty, binder, mapTypes f body⟩ :: mapTypesCatches f rest

end

end Tree

def Arm.mapTypes (f : Ty → Ty) (arm : Arm) : Arm :=
  ⟨arm.value.map (Tree.mapTypes f), arm.body.mapTypes f⟩

def Catch.mapTypes (f : Ty → Ty) (clause : Catch) : Catch :=
  ⟨f clause.ty, clause.binder, clause.body.mapTypes f⟩

namespace Tree

attribute [local simp] mapTypes

variable {f g : Ty → Ty}

@[simp]
theorem mapTypesOption_eq (value : Option Tree) :
    mapTypesOption f value = value.map (mapTypes f) := by
  cases value <;> rfl

@[simp]
theorem mapTypesList_eq (trees : List Tree) : mapTypesList f trees = trees.map (mapTypes f) := by
  induction trees with
  | nil => rfl
  | cons tree rest ih => rw [mapTypesList, ih, List.map_cons]

@[simp]
theorem mapTypesArms_eq (arms : List Arm) : mapTypesArms f arms = arms.map (Arm.mapTypes f) := by
  induction arms with
  | nil => rfl
  | cons arm rest ih =>
    rw [mapTypesArms, ih, mapTypesOption_eq, List.map_cons]
    rfl

@[simp]
theorem mapTypesCatches_eq (catches : List Catch) :
    mapTypesCatches f catches = catches.map (Catch.mapTypes f) := by
  induction catches with
  | nil => rfl
  | cons clause rest ih =>
    rw [mapTypesCatches, ih, List.map_cons]
    rfl

@[simp]
theorem ownNames_mapTypes (tree : Tree) : (tree.mapTypes f).ownNames = tree.ownNames := by
  cases tree with
  | guarded body catches cleanup => simp [ownNames, Function.comp_def, Catch.mapTypes]
  | _ => rfl

@[simp]
theorem kind_mapTypes (tree : Tree) : (tree.mapTypes f).kind = tree.kind := by
  cases tree <;> rfl

@[simp]
theorem trees_mapTypes (arm : Arm) : (arm.mapTypes f).trees = arm.trees.map (mapTypes f) := by
  obtain ⟨value, body⟩ := arm
  cases value <;> rfl

@[simp]
theorem children_mapTypes (tree : Tree) :
    (tree.mapTypes f).children = tree.children.map (mapTypes f) := by
  cases tree with
  | switch label kind subject arms =>
    simp [children, List.flatMap_map, List.map_flatMap]
  | guarded body catches cleanup =>
    cases cleanup <;> simp [children, Function.comp_def, Catch.mapTypes]
  | declareLocal name ty value | ret value => cases value <;> simp [children]
  | readField owner name ty receiver | writeField owner name ty receiver value
  | invoke kind owner method receiver args => cases receiver <;> simp [children]
  | branch condition body otherwise => cases otherwise <;> simp [children]
  | forLoop label init condition update body => cases condition <;> simp [children]
  | _ => simp [children]

/-- The types that a tree itself writes. -/
def ownTypes : Tree → List Ty
  | literal (.classOf ty) | dup ty | readLocal _ ty | declareLocal _ ty _ => [ty]
  | assignLocal _ ty _ | enumConstant ty _ | arith _ ty _ _ | cast ty _ => [ty]
  | instanceOf ty _ | arrayLoad _ _ ty | newArray ty _ | forEach _ _ ty _ _ _ => [ty]
  | readField owner _ ty _ | writeField owner _ ty _ _ => [owner, ty]
  | invoke _ owner method _ _ => owner :: method.result :: method.params
  | create ty params _ => ty :: params
  | guarded _ catches _ => catches.map CatchOf.ty
  | _ => []

section Shapes

theorem size_eq_children {tree : Tree} (h : ∀ decl, tree ≠ localRoutine decl) :
    tree.size = 1 + sizeList tree.children := by
  cases tree with
  | localRoutine decl => exact absurd rfl (h decl)
  | _ =>
    simp [children, size, sizeList, sizeList_append, sizeList_toList, sizeList_arms,
      sizeList_catches] <;>
      omega

@[simp]
theorem size_mapTypes (tree : Tree) : (tree.mapTypes f).size = tree.size := by
  induction tree using induction_children with
  | _ tree ih =>
    have hlist {trees : List Tree} (h : ∀ part ∈ trees, (part.mapTypes f).size = part.size) :
        sizeList (trees.map (mapTypes f)) = sizeList trees := by
      induction trees with
      | nil => rfl
      | cons first rest ihrest =>
        obtain ⟨hfirst, hrest⟩ := List.forall_mem_cons.mp h
        rw [List.map_cons, sizeList, sizeList, hfirst, ihrest hrest]
    cases tree with
    | localRoutine decl => rfl
    | _ =>
      rw [size_eq_children (by intro decl; simp), size_eq_children (by simp),
        children_mapTypes, hlist ih]

theorem lastRedirects_eq_any (trees : List Tree) :
    lastRedirects trees = trees.getLast?.any endsWithRedirect := by
  induction trees with
  | nil => rfl
  | cons tree rest ih =>
    cases rest with
    | nil => simp [lastRedirects]
    | cons next rest =>
      rw [lastRedirects, ih, List.getLast?_cons_cons]
      simp

theorem lastTransfers_eq_any (trees : List Tree) :
    lastTransfers trees = trees.getLast?.any endsInTransfer := by
  induction trees with
  | nil => rfl
  | cons tree rest ih =>
    cases rest with
    | nil => simp [lastTransfers]
    | cons next rest =>
      rw [lastTransfers, ih, List.getLast?_cons_cons]
      simp

theorem allPureRedirects_eq_all (trees : List Tree) :
    allPureRedirects trees = trees.all isPureRedirect := by
  induction trees with
  | nil => rfl
  | cons tree rest ih => rw [allPureRedirects, ih, List.all_cons]

theorem allEmpty_eq_all (trees : List Tree) : allEmpty trees = trees.all isEmpty := by
  induction trees with
  | nil => rfl
  | cons tree rest ih => rw [allEmpty, ih, List.all_cons]

theorem any_getLast?_mapTypes {test : Tree → Bool} {trees : List Tree}
    (h : ∀ part ∈ trees, test (part.mapTypes f) = test part) :
    (trees.map (mapTypes f)).getLast?.any test = trees.getLast?.any test := by
  rw [List.getLast?_map]
  cases hlast : trees.getLast? with
  | none => rfl
  | some last => exact h last (List.mem_of_getLast? hlast)

theorem all_mapTypes {test : Tree → Bool} {trees : List Tree}
    (h : ∀ part ∈ trees, test (part.mapTypes f) = test part) :
    (trees.map (mapTypes f)).all test = trees.all test := by
  rw [List.all_map, Bool.eq_iff_iff, List.all_eq_true, List.all_eq_true]
  exact forall₂_congr fun part hpart => by rw [Function.comp_apply, h part hpart]

@[simp]
theorem endsWithRedirect_mapTypes (tree : Tree) :
    (tree.mapTypes f).endsWithRedirect = tree.endsWithRedirect := by
  induction tree using induction_children with
  | _ tree ih =>
    cases tree with
    | block trees =>
      rw [mapTypes, mapTypesList_eq, endsWithRedirect, endsWithRedirect,
        lastRedirects_eq_any, lastRedirects_eq_any]
      exact any_getLast?_mapTypes ih
    | _ => rfl

@[simp]
theorem endsInTransfer_mapTypes (tree : Tree) :
    (tree.mapTypes f).endsInTransfer = tree.endsInTransfer := by
  induction tree using induction_children with
  | _ tree ih =>
    cases tree with
    | block trees =>
      rw [mapTypes, mapTypesList_eq, endsInTransfer, endsInTransfer, lastTransfers_eq_any,
        lastTransfers_eq_any]
      exact any_getLast?_mapTypes ih
    | _ => rfl

@[simp]
theorem isPureRedirect_mapTypes (tree : Tree) :
    (tree.mapTypes f).isPureRedirect = tree.isPureRedirect := by
  induction tree using induction_children with
  | _ tree ih =>
    cases tree with
    | block trees =>
      have hall : (trees.map (mapTypes f)).all isPureRedirect = trees.all isPureRedirect :=
        all_mapTypes ih
      rw [mapTypes, mapTypesList_eq, isPureRedirect, isPureRedirect, allPureRedirects_eq_all,
        allPureRedirects_eq_all, hall, List.isEmpty_map]
    | _ => rfl

@[simp]
theorem isEmpty_mapTypes (tree : Tree) : (tree.mapTypes f).isEmpty = tree.isEmpty := by
  induction tree using induction_children with
  | _ tree ih =>
    cases tree with
    | block trees =>
      rw [mapTypes, mapTypesList_eq, isEmpty, isEmpty, allEmpty_eq_all, allEmpty_eq_all]
      exact all_mapTypes ih
    | _ => rfl

theorem namesOf_mapTypes (trees : List Tree) :
    namesOf (trees.map (mapTypes f)) = namesOf trees := by
  fun_induction namesOf trees with
  | case1 => rw [List.map_nil, namesOf]
  | case2 tree rest ih =>
    rw [List.map_cons, namesOf, ownNames_mapTypes, children_mapTypes, ← List.map_append, ih]

@[simp]
theorem variableNames_mapTypes (tree : Tree) :
    (tree.mapTypes f).variableNames = tree.variableNames :=
  namesOf_mapTypes [tree]

end Shapes

section Composition

theorem mem_children_guarded {body : Tree} {catches : List Catch} {cleanup : Option Tree}
    {clause : Catch} (h : clause ∈ catches) :
    clause.body ∈ (guarded body catches cleanup).children :=
  List.mem_append_left _ (List.mem_cons_of_mem _ (List.mem_map_of_mem h))

theorem mem_children_switch {label : Option String} {kind : SwitchKind} {subject part : Tree}
    {arms : List Arm} {arm : Arm} (h : arm ∈ arms) (hpart : part ∈ arm.trees) :
    part ∈ (switch label kind subject arms).children :=
  List.mem_cons_of_mem _ (List.mem_flatMap.mpr ⟨arm, h, hpart⟩)

theorem mapTypes_arm_congr {F : Tree → Tree} {arm : Arm}
    (h : ∀ part ∈ arm.trees, part.mapTypes f = F part) :
    arm.mapTypes f = ⟨arm.value.map F, F arm.body⟩ := by
  obtain ⟨value, body⟩ := arm
  cases value with
  | none =>
    have hbody := h body (by simp [ArmOf.trees])
    simp [Arm.mapTypes, hbody]
  | some value =>
    have hvalue := h value (by simp [ArmOf.trees])
    have hbody := h body (by simp [ArmOf.trees])
    simp [Arm.mapTypes, hvalue, hbody]

theorem mapTypes_mapTypes (tree : Tree) :
    (tree.mapTypes g).mapTypes f = tree.mapTypes (f ∘ g) := by
  induction tree using induction_children with
  | _ tree ih =>
    cases tree with
    | literal value => cases value <;> rfl
    | declareLocal name ty value | ret value =>
      cases value <;> simp_all [children]
    | readField owner name ty receiver | writeField owner name ty receiver value
    | invoke kind owner method receiver args =>
      cases receiver <;> simp_all [children, Signature.mapTypes]
    | branch condition body otherwise => cases otherwise <;> simp_all [children]
    | forLoop label init condition update body =>
      cases condition <;> simp_all [children]
    | guarded body catches cleanup =>
      have hclauses (clause : Catch) (hmem : clause ∈ catches) :=
        ih clause.body (mem_children_guarded hmem)
      cases cleanup <;> simp_all [children, Catch.mapTypes]
    | switch label kind subject arms =>
      have harms (arm : Arm) (hmem : arm ∈ arms) :
          (arm.mapTypes g).mapTypes f = arm.mapTypes (f ∘ g) := by
        have hparts := fun part hpart => ih part (mem_children_switch hmem hpart)
        rw [mapTypes_arm_congr fun part hpart => (hparts part hpart).symm]
        obtain ⟨value, body⟩ := arm
        cases value <;> rfl
      simp_all [children]
    | _ => simp_all [children]

/-- Replacements that agree on the types in a tree have the same effect on it. -/
theorem mapTypes_congr {tree : Tree}
    (h : tree.Everywhere fun part => ∀ ty ∈ part.ownTypes, f ty = g ty) :
    tree.mapTypes f = tree.mapTypes g := by
  induction h with
  | @intro tree here below ih =>
    clear below
    cases tree with
    | literal value => cases value <;> simp_all [ownTypes, Literal.mapTypes]
    | declareLocal name ty value | ret value =>
      cases value <;> simp_all [children, ownTypes]
    | readField owner name ty receiver | writeField owner name ty receiver value
    | invoke kind owner method receiver args =>
      cases receiver <;> simp_all [children, ownTypes, Signature.mapTypes]
    | branch condition body otherwise => cases otherwise <;> simp_all [children]
    | forLoop label init condition update body =>
      cases condition <;> simp_all [children]
    | guarded body catches cleanup =>
      have hclauses (clause : Catch) (hmem : clause ∈ catches) :=
        ih clause.body (mem_children_guarded hmem)
      cases cleanup <;> simp_all [children, ownTypes, Catch.mapTypes]
    | switch label kind subject arms =>
      have harms (arm : Arm) (hmem : arm ∈ arms) : arm.mapTypes f = arm.mapTypes g :=
        mapTypes_arm_congr fun part hpart => ih part (mem_children_switch hmem hpart)
      simp_all [children]
    | _ => simp_all [children, ownTypes]

end Composition

end Tree

end StackLowering
