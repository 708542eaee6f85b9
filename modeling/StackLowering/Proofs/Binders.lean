import StackLowering.Proofs.Everywhere
import StackLowering.Proofs.RelatedArms
/-!
Declared variables. A tree declares the names of its declarations, loops and
catch clauses. Whatever lowering puts in place of a tree declares nothing else,
apart from the hidden variables that it introduces itself.
-/

namespace StackLowering

namespace Tree

/-- The variables that a tree itself declares. -/
@[simp]
def ownBinders : Tree → List String
  | declareLocal name _ _ => [name]
  | forEach _ binder _ _ _ _ => [binder]
  | guarded _ catches _ => catches.map CatchOf.binder
  | _ => []

/-- The variables that the tree itself declares are among the bound ones. -/
@[simp]
def BindsOwn (bound : String → Prop) (tree : Tree) : Prop :=
  ∀ name ∈ tree.ownBinders, bound name

/-- All variables declared in the tree are among the bound ones. -/
abbrev BindsOnly (bound : String → Prop) : Tree → Prop := Everywhere (BindsOwn bound)

variable {bound : String → Prop} {tree : Tree}

/-- The tree declares neither a variable nor a routine itself. -/
def isPlain : Tree → Bool
  | declareLocal .. | forEach .. | guarded .. | localRoutine _ => false
  | _ => true

/-- A tree that declares nothing itself has the property if its parts have it. -/
def Inherited (P : Tree → Prop) : Prop :=
  ∀ tree : Tree, tree.isPlain = true → (∀ part ∈ tree.children, P part) → P tree

theorem Inherited.leaf {P : Tree → Prop} (h : Inherited P) (hplain : tree.isPlain = true)
    (hparts : tree.children = []) : P tree := by
  refine h tree hplain ?_
  rw [hparts]
  exact List.forall_mem_nil _

theorem inherited_bindsOnly : Inherited (BindsOnly bound) := by
  intro tree hplain hparts
  refine .intro ?_ hparts
  cases tree with
  | declareLocal | forEach | guarded => cases hplain
  | _ => exact List.forall_mem_nil _

theorem namesOf_append (first rest : List Tree) :
    namesOf (first ++ rest) = namesOf first ++ namesOf rest := by
  fun_induction namesOf first with
  | case1 => rfl
  | case2 tree first ih =>
    rw [List.append_assoc] at ih
    rw [List.cons_append, namesOf, ih, List.append_assoc]

theorem variableNames_eq (tree : Tree) :
    tree.variableNames = tree.ownNames ++ namesOf tree.children := by
  rw [variableNames, namesOf, List.append_nil]

theorem mem_namesOf {name : String} {trees : List Tree} {part : Tree} (hpart : part ∈ trees)
    (hname : name ∈ part.variableNames) : name ∈ namesOf trees := by
  obtain ⟨before, after, rfl⟩ := List.append_of_mem hpart
  have hcons : part :: after = [part] ++ after := rfl
  rw [namesOf_append, hcons, namesOf_append]
  exact List.mem_append_right _ (List.mem_append_left _ hname)

theorem ownBinders_subset (tree : Tree) : tree.ownBinders ⊆ tree.ownNames := by
  cases tree <;> simp [ownBinders, ownNames]

theorem bindsOnly_variableNames (tree : Tree) : tree.BindsOnly (· ∈ tree.variableNames) := by
  induction tree using induction_children with
  | _ tree ih =>
    refine .intro (fun name hname => ?_) fun part hpart => ?_
    · rw [variableNames_eq]
      exact List.mem_append_left _ (tree.ownBinders_subset hname)
    · refine (ih part hpart).mono fun _ hbound name hname => ?_
      rw [variableNames_eq]
      exact List.mem_append_right _ (mem_namesOf hpart (hbound name hname))

end Tree

namespace Switch

variable {bound : String → Prop}

section Hashed

variable {P : Tree → Prop}

/-- A property of trees as a relation between each of them and itself. -/
def Only (P : Tree → Prop) (tree other : Tree) : Prop := P tree ∧ tree = other

theorem forall₂_only {trees trees' : List Tree} (h : List.Forall₂ (Only P) trees trees') :
    (∀ tree ∈ trees, P tree) ∧ trees = trees' := by
  rwa [← List.forall₂_eq_eq_eq, ← List.forall₂_and_left]

theorem rel_only {tree? tree?' : Option Tree} (h : Option.Rel (Only P) tree? tree?') :
    (∀ tree ∈ tree?, P tree) ∧ tree? = tree?' := by
  cases h with
  | none => simp
  | some h => exact ⟨by simpa using h.1, congrArg some h.2⟩

theorem forall₂_sameArm {arms arms' : List Arm}
    (h : List.Forall₂ (SameArm (Only P) (Only P)) arms arms') :
    (∀ arm ∈ arms, (∀ part ∈ arm.value, P part) ∧ P arm.body) ∧ arms = arms' := by
  rw [← List.forall₂_eq_eq_eq, ← List.forall₂_and_left]
  refine h.imp fun arm arm' harm => ?_
  obtain ⟨value, body⟩ := arm
  obtain ⟨value', body'⟩ := arm'
  obtain ⟨hvalue, hbody⟩ := harm
  obtain ⟨hpart, rfl⟩ := rel_only hvalue
  obtain ⟨hbody, rfl⟩ := hbody
  exact ⟨⟨hpart, hbody⟩, rfl⟩

theorem sameArm_only {arms : List Arm} (h : ∀ arm ∈ arms, P arm.body) :
    List.Forall₂ (SameArm SameValue (Only P)) arms arms := by
  refine List.forall₂_same.mpr fun arm harm => ⟨?_, h arm harm, rfl⟩
  cases arm.value with
  | none => exact .none
  | some value => exact .some (.refl value)

theorem composes_only (hP : Tree.Inherited P) : Composes (Only P) where
  isEmpty h := congrArg Tree.isEmpty h.2
  literal _ := ⟨hP.leaf rfl rfl, rfl⟩
  leave := ⟨hP.leaf rfl rfl, rfl⟩
  redirect := ⟨hP.leaf rfl rfl, rfl⟩
  cast := by
    rintro ty _ _ ⟨hvalue, rfl⟩
    exact ⟨hP _ rfl (List.forall_mem_singleton.mpr hvalue), rfl⟩
  or := by
    rintro _ _ _ _ ⟨hleft, rfl⟩ ⟨hright, rfl⟩
    exact ⟨hP _ rfl (List.forall_mem_cons.mpr ⟨hleft, List.forall_mem_singleton.mpr hright⟩), rfl⟩
  not := by
    rintro _ _ ⟨hvalue, rfl⟩
    exact ⟨hP _ rfl (List.forall_mem_singleton.mpr hvalue), rfl⟩
  block := by
    intro trees trees' h
    obtain ⟨htrees, rfl⟩ := forall₂_only h
    exact ⟨hP _ rfl htrees, rfl⟩
  branch := by
    rintro _ _ _ _ _ _ ⟨hcondition, rfl⟩ ⟨hbody, rfl⟩ h
    obtain ⟨helse, rfl⟩ := rel_only h
    refine ⟨hP _ rfl ?_, rfl⟩
    simpa [Tree.children] using ⟨hcondition, hbody, helse⟩
  call := by
    rintro kind owner method _ _ _ _ ⟨hreceiver, rfl⟩ h
    obtain ⟨hargs, rfl⟩ := forall₂_only h
    exact ⟨hP _ rfl (List.forall_mem_cons.mpr ⟨hreceiver, hargs⟩), rfl⟩
  switch := by
    rintro label kind _ _ _ _ ⟨hsubject, rfl⟩ h
    obtain ⟨harms, rfl⟩ := forall₂_sameArm h
    exact ⟨hP _ rfl (List.forall_mem_cons.mpr ⟨hsubject, Tree.forall_trees_iff.mpr harms⟩), rfl⟩

/-- The switch over hash codes keeps the subject in one new variable. The rest of it
has the properties that the arms have. -/
theorem exists_hashed_satisfies {kind : SwitchKind} {label : Option String} {subject tree : Tree}
    {arms : List Arm} {ty : Ty} {name : String} (hP : Tree.Inherited P)
    (h : hashed kind label subject arms ty name = .ok tree) (harms : ∀ arm ∈ arms, P arm.body) :
    ∃ dispatch, tree = .block [.declareLocal name ty (some subject), dispatch] ∧ P dispatch := by
  have hread : P (.readLocal name ty) := hP.leaf rfl rfl
  have hagree := agree_hashed (composes_only hP) (sameArm_only harms) ⟨hread, rfl⟩ kind label
    subject subject
  rw [h] at hagree
  cases hagree with
  | ok h =>
    obtain ⟨dispatch, _, ⟨hdispatch, rfl⟩, rfl, _⟩ := h
    exact ⟨dispatch, rfl, hdispatch⟩

end Hashed

section Arms

variable {P : Tree → Prop} {switch : Tree} {arms : List Arm} {keyed : List (Int32 × Tree)}
  {otherwise : Option Tree}

theorem perm_splitArms {found : Option Tree} {keyed : List KeyedArm}
    (h : splitArms switch found arms = .ok (keyed, otherwise)) :
    (keyed.map KeyedArm.body ++ otherwise.toList).Perm (found.toList ++ arms.map ArmOf.body) := by
  induction arms generalizing found keyed with
  | nil =>
    obtain ⟨rfl, rfl⟩ := Prod.mk.inj (Except.ok.inj h)
    rw [List.map_nil, List.map_nil, List.nil_append, List.append_nil]
  | cons arm rest ih =>
    obtain ⟨value, body⟩ := arm
    cases value with
    | none =>
      rw [splitArms] at h
      split_ifs at h with hfound
      rw [Option.not_isSome_iff_eq_none.mp hfound]
      exact ih h
    | some value =>
      obtain ⟨number, _, h⟩ := bind_eq_ok.mp h
      obtain ⟨⟨later, default⟩, hlater, h⟩ := bind_eq_ok.mp h
      obtain ⟨rfl, rfl⟩ := Prod.mk.inj (Except.ok.inj h)
      exact ((ih hlater).cons body).trans List.perm_middle.symm

theorem perm_collectArms (h : collectArms switch arms = .ok (keyed, otherwise)) :
    (keyed.map Prod.snd ++ otherwise.toList).Perm (arms.map ArmOf.body) := by
  obtain ⟨⟨split, found⟩, hsplit, h⟩ := bind_eq_ok.mp h
  dsimp only at h
  split at h
  · cases h
  · obtain ⟨rfl, rfl⟩ := Prod.mk.inj (Except.ok.inj h)
    refine .trans (.append_right _ ?_) (perm_splitArms hsplit)
    rw [List.map_map, sortBy_eq_insertionSort]
    exact (List.perm_insertionSort _ split).map KeyedArm.body

theorem satisfies_collectArms (h : collectArms switch arms = .ok (keyed, otherwise))
    (harms : ∀ arm ∈ arms, P arm.body) :
    (∀ arm ∈ keyed, P arm.2) ∧ ∀ body ∈ otherwise, P body := by
  have hbodies : ∀ body ∈ keyed.map Prod.snd ++ otherwise.toList, P body := by
    intro body hbody
    obtain ⟨arm, harm, rfl⟩ := List.mem_map.mp ((perm_collectArms h).mem_iff.mp hbody)
    exact harms arm harm
  rw [List.forall_mem_append, List.forall_mem_map] at hbodies
  exact ⟨hbodies.1, fun body hbody => hbodies.2 body (Option.mem_toList.mpr hbody)⟩

theorem satisfies_dispatchedArms {encoding : Encoding} {limit : Nat}
    {dispatched : List (Int32 × Tree)} (hredirect : P .redirect)
    (h : Lowering.dispatchedArms encoding limit keyed = .ok dispatched)
    (harms : ∀ arm ∈ keyed, P arm.2) : ∀ arm ∈ dispatched, P arm.2 := by
  have hsame : List.Forall₂ (SameEntry (Only P)) keyed keyed :=
    List.forall₂_same.mpr fun arm harm => ⟨rfl, ⟨harms arm harm, rfl⟩, rfl⟩
  have houtcomes := outcomes_dispatchedArms (F := Eq) (fun _ _ => rfl) ⟨hredirect, rfl⟩ hsame
    encoding limit
  rw [h] at houtcomes
  cases houtcomes with
  | ok h => exact fun arm harm => (List.forall₂_same.mp h arm harm).body.1

end Arms

end Switch

section Relations

variable {env : Env} {s t : State} {bound : String → Prop} {tree access use : Tree}

theorem Operates.operands_subset {operation : Operation} (h : Operates env s tree operation) :
    ∀ operand ∈ operation.operands, operand ∈ tree.children := by
  cases h with
  | access haccess => cases haccess <;> simp [directAccess, Tree.children]
  | _ => simp [Tree.children]

theorem Accesses.bindsOnly (h : Accesses env s tree access) (htree : tree.BindsOnly bound) :
    access.BindsOnly bound := by
  obtain ⟨_, hparts⟩ := htree
  cases h <;> exact .intro (List.forall_mem_nil _) hparts

/-- The use of a bridge takes the operands of the access, and the current object
where the access has no receiver. -/
theorem Bridges.bindsOnly_access? {bridges bridges' : Bridges} {nest : Nest} {requester : Ty}
    (h : bridges.access? nest requester access = some (use, bridges'))
    (haccess : access.BindsOnly bound) : use.BindsOnly bound := by
  have hreceiver {receiver : Option Tree} (hpart : ∀ part ∈ receiver, part.BindsOnly bound) :
      (receiver.getD .self).BindsOnly bound := by
    cases receiver with
    | none => simp
    | some receiver => exact hpart receiver rfl
  unfold Bridges.access? at h
  split at h
  · obtain ⟨field, _, _, _, ⟨decl, _⟩, _, h⟩ := by simpa only [Option.bind_eq_bind,
      Option.bind_eq_some_iff] using h
    cases h
    refine Tree.everywhere_invoke.mpr ⟨List.forall_mem_nil _, by simp, ?_⟩
    split_ifs
    · exact List.forall_mem_nil _
    · exact List.forall_mem_singleton.mpr (hreceiver (Tree.everywhere_readField.mp haccess).2)
  · obtain ⟨found, _, _, _, ⟨decl, _⟩, _, h⟩ := by simpa only [Option.bind_eq_bind,
      Option.bind_eq_some_iff] using h
    cases h
    obtain ⟨-, hpart, hargs⟩ := Tree.everywhere_invoke.mp haccess
    refine Tree.everywhere_invoke.mpr ⟨List.forall_mem_nil _, by simp, ?_⟩
    split_ifs
    · exact hargs
    · exact List.forall_mem_cons.mpr ⟨hreceiver hpart, hargs⟩
  · obtain ⟨found, _, _, _, ⟨decl, _⟩, _, h⟩ := by simpa only [Option.bind_eq_bind,
      Option.bind_eq_some_iff] using h
    cases h
    refine .intro (List.forall_mem_nil _) fun part hpart => ?_
    rcases List.mem_append.mp hpart with hmem | hmem
    · exact (Tree.everywhere_create.mp haccess).2 part hmem
    · rw [List.mem_singleton.mp hmem]
      simp [Tree.null]
  · cases h

theorem State.bindsOnly_bridged (h : s.bridged env access = (some use, t))
    (haccess : access.BindsOnly bound) : use.BindsOnly bound := by
  unfold State.bridged at h
  split_ifs at h
  · split at h
    · rename_i hfound
      cases h
      exact Bridges.bindsOnly_access? hfound haccess
    · cases h
  · cases h

theorem SubjectKey.bindsOnly {subject key : Tree} (h : SubjectKey env s subject key)
    (hsubject : subject.BindsOnly bound) : key.BindsOnly bound := by
  cases h with
  | plain => exact hsubject
  | unboxed => simpa using hsubject

theorem OrdinalArm.bindsOnly {arms ordinals : List Arm}
    (h : List.Forall₂ (OrdinalArm env s) arms ordinals)
    (harms : ∀ arm ∈ arms, (∀ part ∈ arm.value, part.BindsOnly bound) ∧ arm.body.BindsOnly bound) :
    ∀ arm ∈ ordinals, (∀ part ∈ arm.value, part.BindsOnly bound) ∧ arm.body.BindsOnly bound := by
  induction h with
  | nil => exact harms
  | cons harm _ ih =>
    obtain ⟨hfirst, hrest⟩ := List.forall_mem_cons.mp harms
    refine List.forall_mem_cons.mpr ⟨?_, ih hrest⟩
    cases harm with
    | otherwise => exact hfirst
    | constant => exact ⟨by simp [Arm.new, Tree.int], hfirst.2⟩

end Relations

end StackLowering
