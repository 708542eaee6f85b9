import StackLowering.Proofs.Binders
import StackLowering.Proofs.Context
import StackLowering.Proofs.UniqueNames
import Mathlib.Logic.Relation
/-!
Hidden variables. Lowering generates names for the variables that it adds. Such
a name waits until its variable is declared, which happens once, and every other
declaration is one that the body of the routine asks for. So hidden variables
differ from each other and from all variables of the body.
-/

namespace StackLowering

/-- What the names of hidden variables start with. -/
def hiddenBases : List String :=
  ["$array", "$arrayIndex", "$iterator", "$subject", "$lock", "$result", "$throwable"]

variable {name : String} {slot : UInt16}

namespace Slots

/-- What lowering does to variables, and to the generated names that still have
to be declared. -/
inductive NameStep (bound : String → Prop) : Slots × List String → Slots × List String → Prop
  | pushScope {slots : Slots} {pending : List String} :
      NameStep bound (slots, pending) (slots.pushScope, pending)
  | popScope {slots : Slots} {pending : List String} :
      NameStep bound (slots, pending) (slots.popScope, pending)
  | take {slots : Slots} {pending : List String} {base : String} (hbase : base ∈ hiddenBases) :
      NameStep bound (slots, pending)
        ((slots.uniqueName base).2, (slots.uniqueName base).1 :: pending)
  | visible {slots slots' : Slots} {pending : List String} {name : String} {ty : Ty}
      {slot : UInt16} (hname : bound name) (h : slots.declare name ty = (.ok slot, slots')) :
      NameStep bound (slots, pending) (slots', pending)
  | hidden {slots slots' : Slots} {pending : List String} {name : String} {ty : Ty}
      {slot : UInt16} (hname : name ∈ pending)
      (h : slots.declare name ty = (.ok slot, slots')) :
      NameStep bound (slots, pending) (slots', pending.erase name)

/-- Generated names are no names of the body, and all but the pending ones are
declared exactly once. -/
structure Hides (bound : String → Prop) (slots : Slots) (pending : List String) : Prop where
  named : slots.Named
  used : ∀ name, bound name → slots.isUsed name = true
  apart : ∀ name ∈ slots.hiddenNames, ¬ bound name
  pending_subset : pending ⊆ slots.hiddenNames
  nodup : pending.Nodup
  waiting : ∀ name ∈ pending, slots.declarations name = 0
  once : ∀ name ∈ slots.hiddenNames, name ∉ pending → slots.declarations name = 1
  numbered : ∀ name ∈ slots.hiddenNames,
    ∃ base ∈ hiddenBases, ∃ number : Nat, name = base ++ toString number

variable {bound : String → Prop} {slots slots' : Slots} {pending : List String}

theorem Hides.popScope (h : slots.Hides bound pending) : slots.popScope.Hides bound pending := by
  have hnamed := h.named.popScope
  unfold Slots.popScope at hnamed ⊢
  split_ifs at hnamed ⊢
  · exact h
  · exact ⟨hnamed, h.used, h.apart, h.pending_subset, h.nodup, h.waiting, h.once, h.numbered⟩

theorem Hides.take (h : slots.Hides bound pending) {base : String} (hbase : base ∈ hiddenBases) :
    (slots.uniqueName base).2.Hides bound ((slots.uniqueName base).1 :: pending) := by
  have hunused := slots.isUsed_uniqueName base
  have hnew : (slots.uniqueName base).1 ∉ slots.hiddenNames := by
    intro hmem
    rw [isUsed_of_mem_hiddenNames hmem] at hunused
    cases hunused
  refine ⟨Step.uniqueName.named h.named, fun name hname => ?_, ?_, ?_, ?_, ?_, ?_, ?_⟩
  · have hused := isUsed_iff_mem.mp (h.used name hname)
    rw [names, List.mem_append] at hused
    exact isUsed_iff_mem.mpr (List.mem_append.mpr (hused.imp_right (List.mem_cons_of_mem _)))
  · refine List.forall_mem_cons.mpr ⟨fun hname => ?_, h.apart⟩
    have hused := h.used _ hname
    exact Bool.false_ne_true (hunused.symm.trans hused)
  · exact List.cons_subset_cons _ h.pending_subset
  · exact List.nodup_cons.mpr ⟨fun hmem => hnew (h.pending_subset hmem), h.nodup⟩
  · exact List.forall_mem_cons.mpr ⟨h.named.declarations_of_unused hunused, h.waiting⟩
  · refine List.forall_mem_cons.mpr ⟨fun hmem => absurd List.mem_cons_self hmem, ?_⟩
    intro name hname hmem
    exact h.once name hname fun hpending => hmem (List.mem_cons_of_mem _ hpending)
  · refine List.forall_mem_cons.mpr ⟨?_, h.numbered⟩
    obtain ⟨number, _, hname, _⟩ := slots.uniqueName_spec base
    exact ⟨base, hbase, number, hname⟩

theorem Hides.visible (h : slots.Hides bound pending) {ty : Ty} (hname : bound name)
    (hdeclare : slots.declare name ty = (.ok slot, slots')) :
    slots'.Hides bound pending := by
  have hhidden := hiddenNames_declare hdeclare
  have hsame {other : String} (hother : other ∈ slots.hiddenNames) :
      slots'.declarations other = slots.declarations other :=
    declarations_declare hdeclare fun heq => h.apart other hother (heq ▸ hname)
  refine ⟨(Step.declare hdeclare).named h.named, fun other hother => ?_, ?_, ?_, h.nodup,
    fun other hother => ?_, fun other hother hpending => ?_, ?_⟩
  · exact isUsed_declare hdeclare (h.used other hother)
  · rw [hhidden]
    exact h.apart
  · rw [hhidden]
    exact h.pending_subset
  · rw [hsame (h.pending_subset hother)]
    exact h.waiting other hother
  · rw [hhidden] at hother
    rw [hsame hother]
    exact h.once other hother hpending
  · rw [hhidden]
    exact h.numbered

theorem Hides.hidden (h : slots.Hides bound pending) {ty : Ty} (hname : name ∈ pending)
    (hdeclare : slots.declare name ty = (.ok slot, slots')) :
    slots'.Hides bound (pending.erase name) := by
  have hhidden := hiddenNames_declare hdeclare
  refine ⟨(Step.declare hdeclare).named h.named, fun other hother => ?_, ?_, ?_,
    h.nodup.erase name, fun other hother => ?_, fun other hother hpending => ?_, ?_⟩
  · exact isUsed_declare hdeclare (h.used other hother)
  · rw [hhidden]
    exact h.apart
  · rw [hhidden]
    exact fun other hother => h.pending_subset (List.mem_of_mem_erase hother)
  · have hne : other ≠ name := fun heq => h.nodup.not_mem_erase (heq ▸ hother)
    rw [declarations_declare hdeclare hne]
    exact h.waiting other (List.mem_of_mem_erase hother)
  · rw [hhidden] at hother
    by_cases heq : other = name
    · subst heq
      exact h.named.declarations_declare_new hdeclare (h.waiting other hname)
    · rw [declarations_declare hdeclare heq]
      exact h.once other hother fun hmem => hpending ((List.mem_erase_of_ne heq).mpr hmem)
  · rw [hhidden]
    exact h.numbered

theorem NameStep.hides {before after : Slots × List String} (h : NameStep bound before after)
    (hhides : before.1.Hides bound before.2) : after.1.Hides bound after.2 := by
  cases h with
  | pushScope =>
    exact ⟨Step.pushScope.named hhides.named, hhides.used, hhides.apart, hhides.pending_subset,
      hhides.nodup, hhides.waiting, hhides.once, hhides.numbered⟩
  | popScope => exact hhides.popScope
  | take hbase => exact hhides.take hbase
  | visible hname hdeclare => exact hhides.visible hname hdeclare
  | hidden hname hdeclare => exact hhides.hidden hname hdeclare

/-- The steps lead from the slots and pending names before to those after. -/
abbrev NameSteps (bound : String → Prop) := Relation.ReflTransGen (NameStep bound)

theorem NameSteps.hides {before after : Slots × List String} (h : NameSteps bound before after)
    (hhides : before.1.Hides bound before.2) : after.1.Hides bound after.2 := by
  induction h with
  | refl => exact hhides
  | tail _ hstep ih => exact hstep.hides ih

end Slots

/-- The job declares bound names only. -/
def Job.BindsOnly (bound : String → Prop) : Job → Prop
  | .tree part | .value part | .statement part | .inScope part | .jumpIf part _ _ =>
    part.BindsOnly bound
  | .otherwise _ _ choice | .loopTest choice _ | .catchAll choice _ =>
    ∀ part ∈ choice, part.BindsOnly bound
  | .arm _ keyed _ => keyed.2.BindsOnly bound
  | .clauses _ _ _ _ catches _ =>
    ∀ clause ∈ catches, bound clause.binder ∧ clause.body.BindsOnly bound
  | .param input => bound input.name
  | .cleanup _ | .cleanups _ | .detour _ => True
  | .body _ | .seq _ => False

/-- The job declares bound names and some of the pending ones, each of these once. -/
inductive Job.Declares (bound : String → Prop) : Job → List String → List String → Prop
  | only {job : Job} {pending : List String} (h : job.BindsOnly bound) :
      Declares bound job pending pending
  | nil {pending : List String} : Declares bound (.seq []) pending pending
  | cons {job : Job} {rest : List Job} {pending between left : List String}
      (hjob : Declares bound job pending between) (hrest : Declares bound (.seq rest) between left) :
      Declares bound (.seq (job :: rest)) pending left
  | declaration {name : String} {ty : Ty} {value : Tree} {pending : List String}
      (hname : name ∈ pending) (hvalue : value.BindsOnly bound) :
      Declares bound (.tree (.declareLocal name ty (some value))) pending (pending.erase name)
  | value {tree : Tree} {pending left : List String}
      (h : Declares bound (.tree tree) pending left) : Declares bound (.value tree) pending left
  | statement {tree : Tree} {pending left : List String}
      (h : Declares bound (.tree tree) pending left) :
      Declares bound (.statement tree) pending left
  | block {trees : List Tree} {pending left : List String}
      (h : Declares bound (.seq (trees.map .tree)) pending left) :
      Declares bound (.tree (.block trees)) pending left
  | monitorEnter {tree : Tree} {pending left : List String}
      (h : Declares bound (.value tree) pending left) :
      Declares bound (.tree (.monitorEnter tree)) pending left
  | forLoop {label : Option String} {init update : List Tree} {condition : Option Tree}
      {body : Tree} {pending left : List String}
      (hinit : Declares bound (.seq (init.map .statement)) pending left)
      (hcondition : ∀ part ∈ condition, part.BindsOnly bound)
      (hupdate : ∀ part ∈ update, part.BindsOnly bound) (hbody : body.BindsOnly bound) :
      Declares bound (.tree (.forLoop label init condition update body)) pending left

namespace Job.Declares

variable {bound : String → Prop} {pending left : List String}

theorem seq {jobs : List Job} (h : ∀ job ∈ jobs, job.BindsOnly bound) :
    Declares bound (.seq jobs) pending pending := by
  induction jobs with
  | nil => exact .nil
  | cons job rest ih =>
    obtain ⟨hjob, hrest⟩ := List.forall_mem_cons.mp h
    exact .cons (.only hjob) (ih hrest)

theorem seq_map {α : Type} {items : List α} {job : α → Job}
    (h : ∀ item ∈ items, (job item).BindsOnly bound) :
    Declares bound (.seq (items.map job)) pending pending :=
  seq (List.forall_mem_map.mpr h)

theorem of_value {tree : Tree} (h : Declares bound (.value tree) pending left) :
    Declares bound (.tree tree) pending left := by
  cases h with
  | only h => exact .only h
  | value h => exact h

theorem of_statement {tree : Tree} (h : Declares bound (.statement tree) pending left) :
    Declares bound (.tree tree) pending left := by
  cases h with
  | only h => exact .only h
  | statement h => exact h

theorem of_block {trees : List Tree} (h : Declares bound (.tree (.block trees)) pending left) :
    Declares bound (.seq (trees.map .tree)) pending left := by
  cases h with
  | only h => exact seq_map (Tree.everywhere_block.mp h).2
  | block h => exact h

theorem of_forLoop {label : Option String} {init update : List Tree} {condition : Option Tree}
    {body : Tree}
    (h : Declares bound (.tree (.forLoop label init condition update body)) pending left) :
    Declares bound (.seq (init.map .statement)) pending left ∧
      (∀ part ∈ condition, part.BindsOnly bound) ∧ body.BindsOnly bound ∧
        ∀ part ∈ update, part.BindsOnly bound := by
  cases h with
  | only h =>
    obtain ⟨-, hinit, hrest⟩ := Tree.everywhere_forLoop.mp h
    exact ⟨seq_map hinit, hrest⟩
  | forLoop hinit hcondition hupdate hbody => exact ⟨hinit, hcondition, hbody, hupdate⟩

theorem latest {ty : Ty} {value : Tree} (hvalue : value.BindsOnly bound) :
    Declares bound (.tree (.declareLocal name ty (some value))) (name :: pending) pending := by
  have h : Declares bound (.tree (.declareLocal name ty (some value))) (name :: pending)
      ((name :: pending).erase name) := .declaration List.mem_cons_self hvalue
  rw [List.erase_cons_head] at h
  exact h

theorem earlier {last : String} {ty : Ty} {value : Tree} (hvalue : value.BindsOnly bound) :
    Declares bound (.tree (.declareLocal name ty (some value))) (last :: name :: pending)
      (last :: pending) := by
  have h : Declares bound (.tree (.declareLocal name ty (some value))) (last :: name :: pending)
      ((last :: name :: pending).erase name) :=
    .declaration (List.mem_cons_of_mem _ List.mem_cons_self) hvalue
  by_cases heq : last = name
  · subst heq
    rw [List.erase_cons_head] at h
    exact h
  · rw [List.erase_cons_tail (by simpa using heq), List.erase_cons_head] at h
    exact h

end Job.Declares

theorem Operates.declares {env : Env} {s : State} {tree : Tree} {operation : Operation}
    {bound : String → Prop} {pending left : List String} (h : Operates env s tree operation)
    (hjob : Job.Declares bound (.tree tree) pending left) :
    Job.Declares bound (.seq (operation.operands.map .value)) pending left := by
  cases hjob with
  | only htree =>
    refine .seq_map fun operand hmem => ?_
    exact (Tree.everywhere_iff.mp htree).2 operand (h.operands_subset operand hmem)
  | monitorEnter hvalue =>
    cases h with
    | access haccess => cases haccess
    | monitorEnter => exact .cons hvalue .nil
  | _ =>
    cases h with
    | access haccess => cases haccess

section Rewritten

open Lowering

variable {bound : String → Prop} {pending : List String} {binder : String} {ty : Ty}
  {source body : Tree}

theorem declares_indexedLoop (label : Option String) (arrayTy : Ty) (array index : String)
    (hbinder : bound binder) (hsource : source.BindsOnly bound) (hbody : body.BindsOnly bound) :
    Job.Declares bound (.tree (indexedLoop label binder ty source body arrayTy array index))
      (index :: array :: pending) pending := by
  refine .forLoop ?_ ?_ ?_ ?_
  · have hzero : (Tree.int 0).BindsOnly bound := by simp [Tree.int]
    exact .cons (.statement (.earlier hsource)) (.cons (.statement (.latest hzero)) .nil)
  · simp
  · simp [Tree.int]
  · have hload : (if arrayTy.element?.getD ty = ty then
        Tree.arrayLoad (.readLocal array arrayTy) (.readLocal index Ty.int)
          (arrayTy.element?.getD ty)
        else .cast ty (.arrayLoad (.readLocal array arrayTy) (.readLocal index Ty.int)
          (arrayTy.element?.getD ty))).BindsOnly bound := by
      split_ifs <;> simp
    simpa [hbinder, hbody] using hload

theorem declares_iteratorLoop (label : Option String) (iterator : String)
    (hbinder : bound binder) (hsource : source.BindsOnly bound) (hbody : body.BindsOnly bound) :
    Job.Declares bound (.tree (iteratorLoop label binder ty source body iterator))
      (iterator :: pending) pending := by
  refine .forLoop ?_ ?_ (List.forall_mem_nil _) ?_
  · refine .cons (.statement (.latest ?_)) .nil
    simp [hsource]
  · simp
  · refine .intro (List.forall_mem_nil _) (List.forall_mem_cons.mpr
      ⟨Tree.everywhere_declareLocal.mpr ⟨List.forall_mem_singleton.mpr hbinder, ?_⟩,
        List.forall_mem_singleton.mpr hbody⟩)
    split_ifs <;> simp

/-- A tree that is replaced by another one: names are generated, and the new tree
declares them. -/
theorem Rewrites.declares {env : Env} {s t : State} {tree rewritten : Tree}
    (h : Rewrites env s tree rewritten t) (htree : tree.BindsOnly bound) (pending : List String) :
    ∃ names, Slots.NameSteps bound (s.slots, pending) (t.slots, names ++ pending) ∧
      Job.Declares bound (.tree rewritten) (names ++ pending) pending := by
  cases h with
  | indexed =>
    obtain ⟨hbinder, hsource, hbody⟩ := (Tree.everywhere_iff_operands rfl).mp htree
    replace hbinder := hbinder _ (List.mem_singleton_self _)
    refine ⟨[_, _], ?_, declares_indexedLoop _ _ _ _ hbinder hsource hbody⟩
    exact (Relation.ReflTransGen.single (.take (by decide))).tail (.take (by decide))
  | iterator =>
    obtain ⟨hbinder, hsource, hbody⟩ := (Tree.everywhere_iff_operands rfl).mp htree
    replace hbinder := hbinder _ (List.mem_singleton_self _)
    refine ⟨[_], ?_, declares_iteratorLoop _ _ hbinder hsource hbody⟩
    exact .single (.take (by decide))
  | @synchronized lock body ty =>
    obtain ⟨-, hlock, hbody⟩ := (Tree.everywhere_iff_operands rfl).mp htree
    have hguarded : (Tree.guarded body [] (some (.monitorExit
        (.readLocal (s.freshName "$lock") ty)))).BindsOnly bound :=
      Tree.everywhere_guarded.mpr ⟨List.forall_mem_nil _, hbody, List.forall_mem_nil _, by simp⟩
    have henter : Job.Declares bound (.tree (.block
        [lock, .declareLocal (s.freshName "$lock") ty (some (.dup ty))]))
          (s.freshName "$lock" :: pending) pending :=
      .block (.cons (.only hlock) (.cons (.latest (by simp)) .nil))
    refine ⟨[_], .single (.take (by decide)), .block ?_⟩
    exact .cons (.monitorEnter (.value henter)) (.cons (.only hguarded) .nil)
  | hashed _ _ hhashed =>
    obtain ⟨-, hsubject, harms⟩ := Tree.everywhere_switch.mp htree
    obtain ⟨dispatch, rfl, hdispatch⟩ := Switch.exists_hashed_satisfies Tree.inherited_bindsOnly
      hhashed fun arm harm => (harms arm harm).2
    refine ⟨[_], .single (.take (by decide)), .block (.cons (.latest hsubject) ?_)⟩
    exact .cons (.only hdispatch) .nil

end Rewritten

namespace State

/-- The pending cleanups declare bound names only. -/
def CleanupsBind (bound : String → Prop) (s : State) : Prop :=
  ∀ cleanup ∈ s.cleanups, cleanup.body.BindsOnly bound

variable {bound : String → Prop} {s s' : State}

theorem Keeps.cleanupsBind (h : s.Keeps s') (hs : s.CleanupsBind bound) :
    s'.CleanupsBind bound := by
  unfold CleanupsBind
  rw [h.cleanups]
  exact hs

theorem CleanupsBind.pushCleanup? {cleanup : Option Tree} (hs : s.CleanupsBind bound)
    (hcleanup : ∀ part ∈ cleanup, part.BindsOnly bound) :
    (s.pushCleanup? cleanup).CleanupsBind bound := by
  cases cleanup with
  | none => exact hs
  | some body =>
    intro other hother
    rcases List.mem_append.mp hother with hmem | hmem
    · exact hs other hmem
    · rw [List.mem_singleton.mp hmem]
      exact hcleanup body rfl

theorem CleanupsBind.popCleanup? (hs : s.CleanupsBind bound) (cleanup : Option Tree) :
    (s.popCleanup? cleanup).CleanupsBind bound := by
  cases cleanup with
  | none => exact hs
  | some body => exact fun other hother => hs other (List.mem_of_mem_dropLast hother)

theorem CleanupsBind.pending? {cleanup : Option Tree} (hs : s.CleanupsBind bound) :
    ∀ part ∈ s.pending? cleanup, part.BindsOnly bound := by
  intro part hpart
  obtain ⟨_, _, hlast⟩ := Option.bind_eq_some_iff.mp hpart
  obtain ⟨last, hmem, rfl⟩ := Option.map_eq_some_iff.mp hlast
  exact hs last (List.mem_of_getLast? hmem)

@[simp]
theorem slots_discard (ty : Ty) (s : State) : (s.discard ty).slots = s.slots := by
  unfold discard
  split_ifs <;> rfl

@[simp]
theorem slots_pushCleanup? (cleanup : Option Tree) (s : State) :
    (s.pushCleanup? cleanup).slots = s.slots := by
  cases cleanup <;> rfl

@[simp]
theorem slots_popCleanup? (cleanup : Option Tree) (s : State) :
    (s.popCleanup? cleanup).slots = s.slots := by
  cases cleanup <;> rfl

end State

namespace Lowers

open Slots

variable {env : Env} {bound : String → Prop} {job : Job} {s s' : State}

theorem cleanupsBind (h : Lowers env job s s') (hs : s.CleanupsBind bound) :
    s'.CleanupsBind bound := h.keeps.cleanupsBind hs

/-- A job declares what it should and generates names along the way, each of
which it declares. -/
theorem nameSteps (h : Lowers env job s s') {pending left : List String}
    (hcleanups : s.CleanupsBind bound) (hjob : job.Declares bound pending left) :
    NameSteps bound (s.slots, pending) (s'.slots, left) := by
  induction h generalizing pending left with
  | value _ ih => exact ih hcleanups hjob.of_value
  | statement _ ih => exact ih hcleanups hjob.of_statement
  | inScope _ ih =>
    cases hjob with
    | only h => exact (Relation.ReflTransGen.head .pushScope (ih hcleanups (.only h))).tail .popScope
  | nil =>
    cases hjob with
    | only h => exact h.elim
    | nil => exact .refl
  | cons hfirst _ ih ih' =>
    cases hjob with
    | only h => exact h.elim
    | cons hjob hrest =>
      exact (ih hcleanups hjob).trans (ih' (hfirst.cleanupsBind hcleanups) hrest)
  | @operation _ operation s _ hoperation _ ih =>
    have hstart := ((State.Keeps.refl s).emitsAll operation.first).cleanupsBind hcleanups
    have hoperands := ih hstart (hoperation.declares hjob)
    rw [State.slots_emitsAll] at hoperands
    rw [State.slots_discard, State.slots_emitsAll]
    exact hoperands
  | bridged haccess hbridged _ ih =>
    have hsteps (htree : Tree.BindsOnly bound _) :=
      State.bindsOnly_bridged hbridged (haccess.bindsOnly htree)
    obtain ⟨bridges, rfl⟩ := State.bridged_keeps hbridged
    cases haccess <;> cases hjob with
      | only h => exact ih hcleanups (.only (hsteps h))
  | rewritten hrewrites _ ih =>
    have hstart := ((State.Keeps.refl _).onSlots _).rewrites hrewrites |>.cleanupsBind hcleanups
    have hsteps (htree : Tree.BindsOnly bound _) := hrewrites.declares htree
    cases hrewrites <;> cases hjob with
      | only h =>
        obtain ⟨names, htaken, hdeclares⟩ := hsteps h _
        exact (Relation.ReflTransGen.head .pushScope
          (htaken.trans (ih hstart hdeclares))).tail .popScope
  | enumSwitch harms _ ih =>
    cases hjob with
    | only h =>
      obtain ⟨-, hsubject, hbodies⟩ := Tree.everywhere_switch.mp h
      refine ih hcleanups (.only (Tree.everywhere_switch.mpr ⟨List.forall_mem_nil _, ?_, ?_⟩))
      · simp [hsubject]
      · exact OrdinalArm.bindsOnly harms hbodies
  | block _ ih => exact ih hcleanups hjob.of_block
  | declared _ hslot =>
    cases hjob with
    | only h => exact .single (.visible ((Tree.everywhere_iff.mp h).1 _ (by simp)) hslot)
  | initialized _ _ hslot ih =>
    cases hjob with
    | only h =>
      obtain ⟨hname, hvalue⟩ := Tree.everywhere_declareLocal.mp h
      exact (ih hcleanups (.only (hvalue _ rfl))).tail (.visible (hname _ (by simp)) hslot)
    | declaration hname hvalue => exact (ih hcleanups (.only hvalue)).tail (.hidden hname hslot)
  | sameJumps _ hleft _ ih ih' =>
    cases hjob with
    | only h =>
      obtain ⟨-, hfirst, hsecond⟩ := Tree.everywhere_logical.mp h
      exact (ih hcleanups (.only hfirst)).trans
        (ih' (hleft.cleanupsBind hcleanups) (.only hsecond))
  | skipJumps _ hleft _ ih ih' =>
    cases hjob with
    | only h =>
      obtain ⟨-, hfirst, hsecond⟩ := Tree.everywhere_logical.mp h
      exact (ih hcleanups (.only hfirst)).trans
        (ih' (hleft.cleanupsBind hcleanups) (.only hsecond))
  | notJumps _ ih =>
    cases hjob with
    | only h => exact ih hcleanups (.only (Tree.everywhere_not.mp h).2)
  | literalJumps =>
    cases hjob with
    | only => exact .refl
  | literalSkips =>
    cases hjob with
    | only => exact .refl
  | testJumps _ _ ih =>
    cases hjob with
    | only h => exact ih hcleanups (.only h)
  | logical _ ih =>
    cases hjob with
    | only h =>
      rw [State.slots_discard, State.slots_emitsAll]
      exact ih hcleanups (.only h)
  | @cleanup index cleanup rest s _ htaken _ ih =>
    cases hjob with
    | only =>
      have hmem : cleanup ∈ s.cleanups.drop index := by
        rw [htaken]
        exact List.mem_cons_self
      refine ih (fun other hother => hcleanups other (List.mem_of_mem_take hother)) (.only ?_)
      exact hcleanups cleanup (List.mem_of_mem_drop hmem)
  | noCleanup =>
    cases hjob with
    | only => exact .refl
  | cleanups _ ih =>
    cases hjob with
    | only => exact ih hcleanups (.seq_map fun _ _ => trivial)
  | leave hleaves _ ih =>
    cases hleaves <;> cases hjob with
      | only => exact ih hcleanups (.only trivial)
  | returnVoid _ ih =>
    cases hjob with
    | only => exact ih hcleanups (.only trivial)
  | returnValue _ _ _ ih =>
    cases hjob with
    | only h => exact ih hcleanups (.only ((Tree.everywhere_iff.mp h).2 _ List.mem_cons_self))
  | returnSaved _ hvalue _ hslot _ ih ih' =>
    cases hjob with
    | only h =>
      have hstart : NameSteps bound (_, pending) _ :=
        ih hcleanups (.only ((Tree.everywhere_iff.mp h).2 _ List.mem_cons_self))
      have hsaved : NameSteps bound (_, pending) _ :=
        ih' (hvalue.cleanupsBind hcleanups) (.only trivial)
      have hnamed := ((hstart.tail .pushScope).tail (.take (by decide))).tail
        (.hidden List.mem_cons_self hslot)
      rw [List.erase_cons_head] at hnamed
      exact (hnamed.trans hsaved).tail .popScope
  | @branch _ _ _ _ _ s t _ _ _ _ hmiss hcondition hbody hdetour _ ih₁ ih₂ ih₃ ih₄ =>
    cases hjob with
    | only h =>
      obtain ⟨-, htest, hthen, helse⟩ := Tree.everywhere_branch.mp h
      obtain ⟨count, rfl⟩ := hmiss.newLabels
      have hslots := (s.newLabels 4).slots_newLabels count
      have hstart : ((s.newLabels 4).newLabels count).CleanupsBind bound :=
        ((State.Keeps.refl s).newLabels 4).newLabels count |>.cleanupsBind hcleanups
      have hafter₁ := hcondition.cleanupsBind hstart
      have hafter₂ := hbody.cleanupsBind hafter₁
      have hafter₃ := hdetour.cleanupsBind hafter₂
      have htests : NameSteps bound (((s.newLabels 4).newLabels count).slots, pending) _ :=
        ih₁ hstart (.only htest)
      rw [hslots] at htests
      have hbodies := htests.trans (ih₂ hafter₁ (.only hthen))
      exact (hbodies.trans (ih₃ hafter₂ (.only trivial))).trans (ih₄ hafter₃ (.only helse))
  | noDetour =>
    cases hjob with
    | only => exact .refl
  | detour _ ih =>
    cases hjob with
    | only => exact ih hcleanups (.only trivial)
  | noElse =>
    cases hjob with
    | only => exact .refl
  | hasElse _ ih =>
    cases hjob with
    | only h => exact ih hcleanups (.only (h _ rfl))
  | forLoop hinit hbody hupdate _ ih₁ ih₂ ih₃ ih₄ =>
    obtain ⟨hdeclares, hcondition, hround, hupdates⟩ := hjob.of_forLoop
    have hafter₁ := hinit.cleanupsBind hcleanups
    have hafter₂ := hbody.cleanupsBind hafter₁
    have hafter₃ := hupdate.cleanupsBind hafter₂
    have hrounds := (ih₁ hcleanups hdeclares).trans (ih₂ hafter₁ (.only hround))
    have hupdated := hrounds.trans (ih₃ hafter₂ (.seq_map hupdates))
    have hloop := hupdated.trans (ih₄ hafter₃ (.only hcondition))
    exact (Relation.ReflTransGen.head .pushScope hloop).tail .popScope
  | @whileLoop _ _ _ bodyFirst s _ _ hbody _ ih₁ ih₂ =>
    cases hjob with
    | only h =>
      obtain ⟨-, htest, hround⟩ := (Tree.everywhere_iff_operands rfl).mp h
      have hstart : ((s.newLabels 4).emitsAll
          (if bodyFirst then [] else [.jump .jump s.loopLabels.condition])).CleanupsBind bound :=
        (((State.Keeps.refl s).newLabels 4).emitsAll _).cleanupsBind hcleanups
      have hrounds : NameSteps bound (((s.newLabels 4).emitsAll
          (if bodyFirst then [] else [.jump .jump s.loopLabels.condition])).slots, pending) _ :=
        ih₁ hstart (.only hround)
      rw [State.slots_emitsAll] at hrounds
      exact hrounds.trans (ih₂ (hbody.cleanupsBind hstart) (.only htest))
  | tested _ ih =>
    cases hjob with
    | only h => exact ih hcleanups (.only (h _ rfl))
  | endless =>
    cases hjob with
    | only => exact .refl
  | @intSwitch _ _ _ _ _ _ _ _ _ s m₁ m₂ _ _ hkey hkeyed _ hdispatched hvalue htargets harms _ ih₁
      ih₂ ih₃ =>
      cases hjob with
      | only h =>
        obtain ⟨-, hsubject, hbodies⟩ := Tree.everywhere_switch.mp h
        obtain ⟨hbound, hdefault⟩ :=
          Switch.satisfies_collectArms hkeyed fun arm harm => (hbodies arm harm).2
        have hbound := Switch.satisfies_dispatchedArms (by simp) hdispatched hbound
        have hafter₁ := hvalue.cleanupsBind hcleanups
        obtain ⟨count, rfl⟩ := State.newLabels_of_armTargets htargets
        have hafter₂ := ((State.Keeps.refl m₁).newLabels count).cleanupsBind hafter₁
        have hafter₃ := harms.cleanupsBind hafter₂
        have hkeys : NameSteps bound (_, pending) _ := ih₁ hcleanups (.only (hkey.bindsOnly hsubject))
        have hchoices : NameSteps bound ((m₁.newLabels count).slots, pending) _ := ih₂ hafter₂
          (.seq_map fun pair hpair => hbound pair.1 (List.of_mem_zip hpair).1)
        rw [State.slots_newLabels] at hchoices
        refine (hkeys.trans hchoices).trans (ih₃ hafter₃ (.seq_map fun body hbody => ?_))
        exact hdefault body (Option.mem_toList.mp hbody)
  | sharedArm =>
    cases hjob with
    | only => exact .refl
  | arm _ _ ih =>
    cases hjob with
    | only h => exact ih hcleanups (.only h)
  | @guarded _ catches cleanup _ s _ _ m₃ _ hbody hcopies hclauses _ ih₁ ih₂ ih₃ ih₄ =>
    cases hjob with
    | only h =>
      obtain ⟨hbinders, hregion, hbodies, hcleanup⟩ := Tree.everywhere_guarded.mp h
      have hcatches : ∀ clause ∈ catches, bound clause.binder ∧ clause.body.BindsOnly bound :=
        fun clause hclause =>
          ⟨hbinders _ (List.mem_map_of_mem hclause), hbodies clause hclause⟩
      have hstart : ((s.newLabels 3).pushCleanup? cleanup).CleanupsBind bound :=
        (((State.Keeps.refl s).newLabels 3).cleanupsBind hcleanups).pushCleanup? hcleanup
      have hafter₁ := hbody.cleanupsBind hstart
      have hafter₂ := hcopies.cleanupsBind hafter₁
      have hafter₃ := hclauses.cleanupsBind hafter₂
      have hbodies : NameSteps bound (((s.newLabels 3).pushCleanup? cleanup).slots, pending) _ :=
        ih₁ hstart (.only hregion)
      rw [State.slots_pushCleanup?] at hbodies
      have hcopied := hbodies.trans (ih₂ hafter₁ (.only trivial))
      have hcaught := hcopied.trans (ih₃ hafter₂ (.only hcatches))
      have hlast : NameSteps bound (_, pending) _ := ih₄ (hafter₃.popCleanup? cleanup) (.only hafter₃.pending?)
      rw [State.slots_popCleanup?] at hlast
      exact hcaught.trans hlast
  | noClauses =>
    cases hjob with
    | only => exact .refl
  | clause _ hslot hbody hcopies _ ih₁ ih₂ ih₃ =>
    cases hjob with
    | only h =>
      obtain ⟨⟨hbinder, hcatch⟩, hrest⟩ := List.forall_mem_cons.mp h
      have hafter₁ := hbody.cleanupsBind hcleanups
      have hafter₂ := hcopies.cleanupsBind hafter₁
      have hcaught : NameSteps bound (_, pending) _ :=
        ((Relation.ReflTransGen.single NameStep.pushScope).tail (.visible hbinder hslot)).trans
          (ih₁ hcleanups (.only hcatch))
      have hcopied := (hcaught.tail .popScope).trans (ih₂ hafter₁ (.only trivial))
      exact hcopied.trans (ih₃ hafter₂ (.only hrest))
  | noCatchAll =>
    cases hjob with
    | only => exact .refl
  | @catchAll _ ranges _ _ s t _ ht hslot _ ih =>
    cases hjob with
    | only h =>
      have hstart : t.CleanupsBind bound := by
        rw [ht]
        exact (((State.Keeps.refl s).newLabels 1).emitsAll _).cleanupsBind hcleanups
      have hscope : t.slots = s.slots.pushScope := by
        rw [ht]
        exact congrArg Slots.pushScope (State.slots_emitsAll _ _)
      have hentered : NameSteps bound (s.slots, pending) (t.slots, pending) := by
        rw [hscope]
        exact .single .pushScope
      have hnamed := (hentered.tail (.take (by decide))).tail
        (.hidden List.mem_cons_self hslot)
      rw [List.erase_cons_head] at hnamed
      exact (hnamed.trans (ih hstart (.only (h _ rfl)))).tail .popScope
  | bodiless =>
    cases hjob with
    | only => exact .refl
  | localRoutine =>
    cases hjob with
    | only => exact .refl
  | param _ hslot =>
    cases hjob with
    | only h => exact .single (.visible h hslot)
  | body =>
    cases hjob with
    | only h => exact h.elim

end Lowers

/-- The variable is declared, assigned, read, iterated or caught in the tree. -/
inductive Tree.Mentions (name : String) : Tree → Prop
  | declared {ty : Ty} {value : Option Tree} : Mentions name (.declareLocal name ty value)
  | assigned {ty : Ty} {value : Tree} : Mentions name (.assignLocal name ty value)
  | read {ty : Ty} : Mentions name (.readLocal name ty)
  | iterated {label : Option String} {ty : Ty} {iteration : Iteration} {source body : Tree} :
      Mentions name (.forEach label name ty iteration source body)
  | caught {body : Tree} {catches : List Catch} {cleanup : Option Tree} {clause : Catch}
      (hclause : clause ∈ catches) (hbinder : clause.binder = name) :
      Mentions name (.guarded body catches cleanup)
  | part {tree part : Tree} (hpart : part ∈ tree.children) (h : Mentions name part) :
      Mentions name tree

theorem Tree.Mentions.mem_variableNames {tree : Tree} (h : tree.Mentions name) :
    name ∈ tree.variableNames := by
  induction h with
  | part hpart _ ih =>
    rw [variableNames_eq]
    exact List.mem_append_right _ (mem_namesOf hpart ih)
  | caught hclause hbinder =>
    rw [variableNames_eq]
    exact List.mem_append_left _ (List.mem_map.mpr ⟨_, hclause, hbinder⟩)
  | _ =>
    rw [variableNames_eq]
    exact List.mem_append_left _ List.mem_cons_self

/-- Nothing is generated yet, and the given names are used. -/
structure Slots.Reserved (names : List String) (slots : Slots) : Prop where
  named : slots.Named
  hidden : slots.hiddenNames = []
  used : ∀ name ∈ names, slots.isUsed name = true

namespace Slots.Reserved

variable {names : List String} {slots slots' : Slots}

theorem empty : Reserved [] Slots.empty := ⟨named_empty, rfl, List.forall_mem_nil _⟩

theorem reserve (h : slots.Reserved names) (name : String) :
    (slots.reserve name).Reserved (name :: names) where
  named := Step.reserve.named h.named
  hidden := h.hidden
  used := by
    refine List.forall_mem_cons.mpr ⟨isUsed_reserve.mpr (.inl rfl), fun other hother => ?_⟩
    exact isUsed_reserve.mpr (.inr (h.used other hother))

theorem reserveAll {s : State} (h : s.slots.Reserved names) (more : List String) :
    (s.reserveAll more).slots.Reserved (more.reverse ++ names) := by
  induction more generalizing s names with
  | nil => exact h
  | cons name rest ih =>
    rw [List.reverse_cons, List.append_assoc]
    exact ih (h.reserve name)

theorem declare (h : slots.Reserved names) {ty : Ty}
    (hdeclare : slots.declare name ty = (.ok slot, slots')) :
    slots'.Reserved (name :: names) where
  named := (Step.declare hdeclare).named h.named
  hidden := (hiddenNames_declare hdeclare).trans h.hidden
  used := by
    refine List.forall_mem_cons.mpr ⟨isUsed_of_declare hdeclare h.named, fun other hother => ?_⟩
    exact isUsed_declare hdeclare (h.used other hother)

theorem params {env : Env} {params : List Param} {s s' : State}
    (h : Lowers env (.seq (params.map .param)) s s') (hs : s.slots.Reserved names) :
    s'.slots.Reserved ((params.map Param.name).reverse ++ names) := by
  induction params generalizing s names with
  | nil =>
    cases h
    exact hs
  | cons param rest ih =>
    cases h with
    | cons hparam hrest =>
      cases hparam with
      | param _ hslot =>
        rw [List.map_cons, List.reverse_cons, List.append_assoc]
        exact ih hrest (hs.declare hslot)

theorem hides (h : slots.Reserved names) {bound : String → Prop}
    (hbound : ∀ name, bound name → name ∈ names) : slots.Hides bound [] where
  named := h.named
  used := fun name hname => h.used name (hbound name hname)
  apart := by simp [h.hidden]
  pending_subset := List.nil_subset _
  nodup := List.nodup_nil
  waiting := List.forall_mem_nil _
  once := by simp [h.hidden]
  numbered := by simp [h.hidden]

end Slots.Reserved

/-- A routine hides its generated names from its parameters and its body. -/
theorem Lowers.hides_body {env : Env} {decl : RoutineDecl} {s t : State}
    (h : Lowers env (.body decl) s t) (hslots : s.slots = .empty) (hcleanups : s.cleanups = []) :
    t.slots.Hides (fun name => name ∈ decl.params.map Param.name ∨ name ∈ decl.body.variableNames)
      [] := by
  cases h with
  | @body _ _ m m' hparams hbody =>
    have hempty : s.slots.Reserved [] := hslots ▸ .empty
    have hreserved := Slots.Reserved.params hparams (hempty.reserveAll _)
    have hstart : m.slots.Hides (fun name => name ∈ decl.params.map Param.name ∨
        name ∈ decl.body.variableNames) [] := by
      refine hreserved.hides fun name hname => ?_
      simpa using hname
    have hnone : m.cleanups = [] :=
      (((State.Keeps.refl s).reserveAll _).trans hparams.keeps).cleanups.trans hcleanups
    have hbinds : decl.body.BindsOnly fun name => name ∈ decl.params.map Param.name ∨
        name ∈ decl.body.variableNames :=
      decl.body.bindsOnly_variableNames.mono fun _ hown name hname => .inr (hown name hname)
    have hpending : m.CleanupsBind (fun name => name ∈ decl.params.map Param.name ∨
        name ∈ decl.body.variableNames) := by
      simp [State.CleanupsBind, hnone]
    have hsteps : Slots.NameSteps _ (_, []) _ := hbody.nameSteps hpending (.only hbinds)
    rw [State.slots_emitsAll]
    exact hsteps.hides hstart

namespace Lowering

/-- Every name that lowering a routine generates has one of seven forms. It is no
parameter and does not occur in the body, and the slot table has exactly one
variable of this name. A new name carries the first number that makes an unused
one, so the search for it ends. -/
theorem hidden_names_distinct {decl : RoutineDecl} {env : Env} {shared shared' : Shared}
    {lowered : Routine} {nested : List Routine}
    (h : routine Handlers.standard.process decl env shared = (.ok (lowered, nested), shared')) :
    (∃ t, Lower.Runs (routineBody Handlers.standard.process decl) env
        (.initial env.nest shared decl.info) () t ∧
      lowered.slots = t.slots.table.toList ∧ t.slots.hiddenNames.Nodup ∧
      ∀ name ∈ t.slots.hiddenNames,
        (∃ base ∈ hiddenBases, ∃ number : Nat, name = base ++ toString number) ∧
        name ∉ decl.params.map Param.name ∧ ¬ decl.body.Mentions name ∧
        (lowered.slots.map SlotEntry.name).count name = 1) ∧
      ∀ (slots : Slots) (base : String), ∃ number, slots.nameCounter ≤ number ∧
        (slots.uniqueName base).1 = base ++ toString number ∧
        slots.isUsed (base ++ toString number) = false ∧
        ∀ smaller, slots.nameCounter ≤ smaller → smaller < number →
          slots.isUsed (base ++ toString smaller) = true := by
  refine ⟨?_, Slots.uniqueName_spec⟩
  obtain ⟨t, output, hruns, hbody, hfinish, hresult, _⟩ :=
    Derives.routine_runs (Derives.process env) h
  obtain ⟨rfl, rfl⟩ := Prod.mk.inj hresult
  have hhides := hbody.hides_body rfl rfl
  have hslots : output.slots = t.slots.table.toList := by
    obtain ⟨code, _, houtput⟩ := bind_eq_ok.mp hfinish
    obtain rfl := Except.ok.inj houtput
    rfl
  refine ⟨t, hruns, hslots, hhides.named.hidden, fun name hname => ?_⟩
  have hapart := not_or.mp (hhides.apart name hname)
  refine ⟨hhides.numbered name hname, hapart.1, fun hmentions => ?_, ?_⟩
  · exact hapart.2 hmentions.mem_variableNames
  · change (output.slots.map SlotEntry.name).count name = 1
    rw [hslots]
    exact hhides.once name hname List.not_mem_nil

/-- A synchronized block among variables that are named like hidden ones. -/
theorem hidden_names_distinct_synchronized :
    ∃ decl : RoutineDecl, decl.params = [⟨"$throwable2", Ty.int⟩] ∧
      decl.body = .block [.declareLocal "$lock0" Ty.int (some (.int 7)),
        .synchronized .self (.assignLocal "$lock0" Ty.int (.readLocal "$throwable2" Ty.int))] ∧
      ∃ lowered nested shared', routine Handlers.standard.process decl ⟨.empty, {}⟩ .empty =
          (.ok (lowered, nested), shared') ∧
        lowered.slots.map SlotEntry.name = ["$throwable2", "$lock0", "$lock1", "$throwable3"] ∧
        ∃ t : State, lowered.slots = t.slots.table.toList ∧ t.slots.hiddenNames.Nodup ∧
          ∀ name ∈ t.slots.hiddenNames, name ∉ ["$throwable2"] ∧ ¬ decl.body.Mentions name ∧
            (lowered.slots.map SlotEntry.name).count name = 1 := by
  refine ⟨⟨.object "Main", "run", [⟨"$throwable2", Ty.int⟩], Ty.void, false, _⟩, rfl, rfl, ?_⟩
  generalize hresult : routine Handlers.standard.process _ _ _ = result
  obtain ⟨result, shared', rfl⟩ := exists_ok hresult (by decide +kernel)
  have hnames : _ = result.1.slots.map SlotEntry.name := congrArg (fun result =>
    result.1.toOption.elim [] fun result => result.1.slots.map SlotEntry.name) hresult
  obtain ⟨t, _, hslots, hnodup, hall⟩ := (hidden_names_distinct hresult).1
  refine ⟨result.1, result.2, shared', rfl, hnames.symm.trans (by decide +kernel), t, hslots,
    hnodup, fun name hname => ?_⟩
  obtain ⟨_, hparams, hbody, honce⟩ := hall name hname
  exact ⟨hparams, hbody, honce⟩

end Lowering

end StackLowering
