import StackLowering.Proofs.Dispatch
import StackLowering.Proofs.WellFormed
/-!
Every lowered routine has well-formed code. Whatever a job lowers, it goes
through sound calls, operations on slots and other routines only. A routine
without a result ends with an instruction that leaves it.
-/

namespace StackLowering

/-- The call suits every routine: it names no variable. -/
def Call.Plain (call : Call) : Prop := ∀ slots, call.Sound slots

theorem Call.plain_pop (width : Nat) : (Call.pop width).Plain := fun _ => trivial

theorem Call.plain_bool (value : Bool) : (Call.bool value).Plain := fun _ => trivial

theorem Call.plain_jumpIf (sense : Bool) (target : Label) :
    (Call.jump (if sense then .jumpIfTrue else .jumpIfFalse) target).Plain := by
  intro _
  change Opcode.isJump _ = true
  split_ifs <;> rfl

theorem Call.plain_region (start stop handler : Label) (catches : Option Digest) :
    (Call.region start stop handler catches).Plain := fun _ => trivial

theorem Call.plain_enterFrame : Call.enterFrame.Plain := fun _ => trivial

theorem Call.plain_exitFrame : Call.exitFrame.Plain := fun _ => trivial

variable {call : Call} {slot : UInt16} {operation : Operation} {name : String}

theorem Call.Computes.sound {named : UInt16 → Prop} {slots : Slots} (h : call.Computes named)
    (hnamed : ∀ slot, named slot → slots.Lists slot) : call.Sound slots := by
  cases call with
  | getLocal slot | setLocal slot | incLocal slot => exact hnamed slot h
  | op | digest => exact h
  | constant | int | bool | dup | invoke | create => trivial
  | _ => exact h.elim

/-- The calls of an operation suit any routine that has the slots from before. -/
theorem Operates.sound {env : Env} {s : State} {tree : Tree} (h : Operates env s tree operation)
    (hvalid : s.slots.Valid) :
    (∀ call ∈ operation.first, call.Plain) ∧ ∀ call ∈ operation.last, ∀ slots : Slots,
      (∀ slot, s.slots.Lists slot → slots.Lists slot) → call.Sound slots := by
  obtain ⟨hfirst, hlast⟩ := h.computes _ hvalid.lists_of_require
  exact ⟨fun call hcall _ => (hfirst call hcall).sound fun _ => False.elim,
    fun call hcall _ => (hlast call hcall).sound⟩

/-- Lowering leads from one state to another through steps that suit a routine
with valid slots. -/
def State.Reaches (closed : Bool) (s s' : State) : Prop := s.slots.Valid → State.Steps closed s s'

theorem State.Steps.emitsAll {s m : State} (h : Steps false s m) {calls : List Call}
    (hsound : ∀ call ∈ calls, ∀ slots : Slots,
      (∀ slot, s.slots.Lists slot → slots.Lists slot) → call.Sound slots) :
    Steps false s (m.emitsAll calls) := by
  induction calls generalizing m with
  | nil => exact h
  | cons call rest ih =>
    obtain ⟨hfirst, hrest⟩ := List.forall_mem_cons.mp hsound
    exact ih (h.emits (hfirst m.slots fun _ => h.lists)) hrest

namespace State.Reaches

variable {closed closed' : Bool} {s m s' : State}

theorem refl (s : State) : Reaches false s s := fun _ => .refl s

section

variable (h : Reaches closed s m)

include h

theorem trans (h' : Reaches closed' m s') : Reaches closed' s s' :=
  fun hvalid => (h hvalid).trans (h' ((h hvalid).valid hvalid))

theorem forget : Reaches false s m := fun hvalid => (h hvalid).forget

omit h in
theorem context {t t' : State} (h : Reaches closed t t') (hstart : t.core = s.core)
    (hend : s'.core = t'.core) : Reaches closed s s' := by
  intro hvalid
  have hslots : t.slots = s.slots := (Prod.mk.inj (Prod.mk.inj hstart).2).1
  exact (((Steps.refl s).context hstart).trans (h (hslots ▸ hvalid))).context hend

theorem emits (hplain : call.Plain) : Reaches false s (m.emits call) :=
  fun hvalid => (h hvalid).emits (hplain m.slots)

theorem exits (hexit : call.isExit = true) : Reaches true s (m.emits call) :=
  fun hvalid => (h hvalid).exits hexit

theorem getLocal (hslot : s.slots.Lists slot) :
    Reaches false s (m.emits (.getLocal slot)) :=
  fun hvalid => (h hvalid).emits ((h hvalid).lists hslot)

theorem setLocal (hslot : s.slots.Lists slot) :
    Reaches false s (m.emits (.setLocal slot)) :=
  fun hvalid => (h hvalid).emits ((h hvalid).lists hslot)

omit h in
theorem emitsAll (h : Reaches false s m) {calls : List Call}
    (hplain : ∀ call ∈ calls, call.Plain) : Reaches false s (m.emitsAll calls) := by
  induction calls generalizing m with
  | nil => exact h
  | cons call rest ih =>
    obtain ⟨hfirst, hrest⟩ := List.forall_mem_cons.mp hplain
    exact ih (h.emits hfirst) hrest

theorem bind (label : Label) : Reaches false s (m.emits (.bind label)) :=
  h.emits fun _ => trivial

theorem jump (label : Label) : Reaches false s (m.emits (.jump .jump label)) :=
  h.emits fun _ => rfl

omit h in
theorem regions (h : Reaches false s m) (handler : Label) (ranges : List (Label × Label)) :
    Reaches false s (m.emitsAll (ranges.map fun range =>
      .region range.1 range.2 handler none)) := by
  refine h.emitsAll fun call hcall => ?_
  obtain ⟨range, _, rfl⟩ := List.mem_map.mp hcall
  exact Call.plain_region _ _ _ _

theorem newLabel : Reaches false s (m.emits .newLabel) :=
  h.emits fun _ => trivial

omit h in
theorem newLabels (h : Reaches false s m) (count : Nat) : Reaches false s (m.newLabels count) := by
  induction count with
  | zero => exact h
  | succ count ih => exact ih.newLabel

omit h in
theorem discard (h : Reaches false s m) (ty : Ty) : Reaches false s (m.discard ty) := by
  unfold State.discard
  split_ifs
  · exact h
  · exact h.emits (Call.plain_pop ty.width)

theorem slots {slots : Slots} (hstep : Slots.Step m.slots slots) :
    Reaches closed s (m.withSlots slots) :=
  fun hvalid => (h hvalid).slots hstep

theorem enterSlotScope : Reaches closed s m.enterSlotScope :=
  h.slots .pushScope

theorem exitSlotScope : Reaches closed s m.exitSlotScope :=
  h.slots .popScope

theorem takeName (base : String) : Reaches closed s (m.takeName base) :=
  h.slots .uniqueName

theorem reserveAll (names : List String) : Reaches closed s (m.reserveAll names) := by
  induction names generalizing m with
  | nil => exact h
  | cons name rest ih => exact ih (h.slots .reserve)

theorem enterScope : Reaches false s m.enterScope :=
  (h.emits Call.plain_enterFrame).enterSlotScope

theorem exitScope : Reaches false s m.exitScope :=
  h.exitSlotScope.emits Call.plain_exitFrame

theorem declare {ty : Ty} {slots : Slots} (hslot : m.slots.declare name ty = (.ok slot, slots)) :
    Reaches closed s (m.withSlots slots) :=
  h.slots (.declare hslot)

theorem declaring {ty : Ty} {slots : Slots} (hslot : m.slots.declare name ty = (.ok slot, slots))
    (hrest : slots.Lists slot → Reaches closed' (m.withSlots slots) s') : Reaches closed' s s' := by
  intro hvalid
  have hm := (h hvalid).valid hvalid
  exact (h.declare hslot).trans (hrest (hm.lists_of_declare hslot)) hvalid

theorem storeNew {ty : Ty} {slots : Slots} (hslot : m.slots.declare name ty = (.ok slot, slots)) :
    Reaches false s ((m.withSlots slots).emits (.setLocal slot)) :=
  h.declaring hslot fun hlists => (refl _).setLocal hlists

end

theorem inFlow {flow : Flow} (h : Reaches closed (s.pushFlow flow) m) :
    Reaches closed s m.popFlow :=
  h.context rfl rfl

theorem inCleanup {cleanup : Option Tree} (h : Reaches closed (s.pushCleanup? cleanup) m) :
    Reaches closed s (m.popCleanup? cleanup) := by
  cases cleanup with
  | none => exact h
  | some body => exact h.context rfl rfl

theorem rewrites {env : Env} {tree rewritten : Tree} (h : Reaches closed s m)
    (hrewrites : Rewrites env m tree rewritten s') : Reaches closed s s' := by
  cases hrewrites with
  | indexed => exact (h.takeName _).takeName _
  | iterator | synchronized | hashed => exact h.takeName _

end State.Reaches

namespace Job

mutual

/-- Control does not go on behind the code of the job. -/
def closes : Job → Bool
  | .tree code | .statement code => code.endsInTransfer
  | .body decl => decl.result.isVoid
  | .seq jobs => lastCloses jobs
  | _ => false

def lastCloses : List Job → Bool
  | [] => false
  | job :: rest => if rest.isEmpty then job.closes else lastCloses rest

end

theorem lastCloses_map_tree (trees : List Tree) :
    lastCloses (trees.map .tree) = Tree.lastTransfers trees := by
  induction trees with
  | nil => rfl
  | cons first rest ih =>
    rw [List.map_cons, lastCloses, Tree.lastTransfers, ih, List.isEmpty_map, closes]

end Job

theorem Operates.raises {env : Env} {s : State} {tree : Tree} (h : Operates env s tree operation)
    (hends : tree.endsInTransfer = true) :
    operation.last = [.op .raise] ∧ operation.result = Ty.void := by
  cases h with
  | raise => exact ⟨rfl, rfl⟩
  | access haccess => cases haccess <;> simp [Tree.endsInTransfer] at hends
  | _ => simp [Tree.endsInTransfer] at hends

theorem dispatchCall_plain {encoding : Switch.Encoding} {otherwise : Label}
    {targets : List (Int32 × Label)} (h : (dispatchCall encoding otherwise targets).Proper) :
    (dispatchCall encoding otherwise targets).Plain := by
  intro slots
  unfold dispatchCall at h ⊢
  split at h
  · exact h
  · exact h

namespace Lowers

variable {env : Env} {s m s' : State}

theorem reaches_operation {tree : Tree} (hoperation : Operates env s tree operation)
    (hoperands : State.Reaches false (s.emitsAll operation.first) m) :
    State.Reaches tree.endsInTransfer s
      ((m.emitsAll operation.last).discard operation.result) := by
  cases hends : tree.endsInTransfer with
  | true =>
    obtain ⟨hlast, hresult⟩ := hoperation.raises hends
    rw [hlast, hresult, State.discard_void]
    intro hvalid
    have hstart := (State.Reaches.refl s).emitsAll (hoperation.sound hvalid).1
    exact (hstart.trans hoperands).exits rfl hvalid
  | false =>
    refine State.Reaches.discard (fun hvalid => ?_) operation.result
    obtain ⟨hfirst, hlast⟩ := hoperation.sound hvalid
    have hsteps := ((State.Reaches.refl s).emitsAll hfirst).trans hoperands hvalid
    exact hsteps.emitsAll fun call hcall slots hlists => hlast call hcall slots hlists

/-- Every job goes through steps that suit a routine. -/
theorem reaches {job : Job} (h : Lowers env job s s') : State.Reaches job.closes s s' := by
  induction h with
  | value _ ih => exact ih.forget.context rfl rfl
  | statement _ ih => exact ih.context rfl rfl
  | inScope _ ih => exact ((State.Reaches.refl _).enterScope.trans ih).exitScope
  | nil => exact .refl _
  | @cons job rest _ _ _ _ hrest ih ih' =>
    cases rest with
    | nil =>
      cases hrest
      exact ih
    | cons next rest => exact ih.trans ih'
  | operation hoperation _ ih => exact reaches_operation hoperation ih.forget
  | bridged haccess hbridged _ ih =>
    obtain ⟨bridges, rfl⟩ := State.bridged_keeps hbridged
    cases haccess <;> exact ih.forget.context rfl rfl
  | rewritten hrewrites _ ih =>
    have hstart := (State.Reaches.refl _).enterSlotScope.rewrites hrewrites
    have hclosed := (hstart.trans ih.forget).exitSlotScope
    cases hrewrites <;> exact hclosed
  | enumSwitch _ _ ih => exact ih
  | block _ ih =>
    rw [Job.closes, Job.lastCloses_map_tree] at ih
    exact ih
  | declared _ hslot => exact (State.Reaches.refl _).declare hslot
  | initialized _ _ hslot ih => exact ih.storeNew hslot
  | sameJumps _ _ _ ih ih' => exact ih.trans ih'
  | skipJumps _ _ _ ih ih' =>
    exact (((State.Reaches.refl _).newLabel.trans ih).trans ih').bind _
  | notJumps _ ih => exact ih
  | literalJumps => exact (State.Reaches.refl _).jump _
  | literalSkips => exact .refl _
  | testJumps _ _ ih => exact ih.emits (Call.plain_jumpIf _ _)
  | logical _ ih =>
    have hjumps := ((State.Reaches.refl _).newLabels 2).trans ih
    have htrue := hjumps.emits (Call.plain_bool true)
    exact ((((htrue.jump _).bind _).emits (Call.plain_bool false)).bind _).discard _
  | cleanup _ _ ih => exact ih.context rfl rfl
  | noCleanup => exact .refl _
  | cleanups _ ih => exact ih.forget
  | leave hleaves _ ih =>
    cases hleaves <;> exact ih.jump _
  | returnVoid _ ih => exact ih.exits rfl
  | returnValue _ _ _ ih => exact ih.exits rfl
  | returnSaved _ _ _ hslot _ ih ih' =>
    refine (((ih.enterSlotScope.takeName _).declaring hslot fun hlists => ?_)).exitSlotScope
    exact (((State.Reaches.refl _).setLocal hlists).trans ih').getLocal hlists |>.exits rfl
  | @branch _ _ _ _ _ s _ _ _ _ _ hmiss _ _ _ _ ih₁ ih₂ ih₃ ih₄ =>
    obtain ⟨count, rfl⟩ := hmiss.newLabels
    have hstart := ((State.Reaches.refl s).newLabels 4).newLabels count
    exact (((((hstart.bind _).trans ih₁).bind _).trans ih₂).trans ih₃).trans ih₄ |>.bind _
  | noDetour => exact .refl _
  | detour _ ih => exact (((State.Reaches.refl _).bind _).trans ih).jump _
  | noElse => exact .refl _
  | hasElse _ ih => exact (((State.Reaches.refl _).jump _).bind _).trans ih
  | forLoop _ _ _ _ ih₁ ih₂ ih₃ ih₄ =>
    have hbody := ((State.Reaches.refl _).bind _).trans ih₂
    have hround := ((hbody.bind _).trans ih₃).inFlow
    have hstart := ((State.Reaches.refl _).enterScope.trans ih₁).forget.newLabels 4
    exact ((((hstart.jump _).trans hround).bind _).trans ih₄).bind _ |>.exitScope
  | @whileLoop _ _ _ bodyFirst _ _ _ _ _ ih₁ ih₂ =>
    have hround := (((State.Reaches.refl _).bind _).trans ih₁).inFlow
    have hloop := ((hround.bind _).trans ih₂).bind
    refine State.Reaches.trans (((State.Reaches.refl _).newLabels 4).emitsAll ?_) (hloop _)
    cases bodyFirst with
    | false => exact List.forall_mem_singleton.mpr fun _ => rfl
    | true => exact List.forall_mem_nil _
  | tested _ ih => exact ih
  | endless => exact (State.Reaches.refl _).jump _
  | intSwitch _ hkeyed hencoding hdispatched _ htargets _ _ ih₁ ih₂ ih₃ =>
    subst hencoding
    have hdispatch (otherwise : Label) := dispatchCall_plain <|
      dispatchCall_proper hkeyed hdispatched (State.map_fst_armTargets htargets) otherwise
    obtain ⟨count, rfl⟩ := State.newLabels_of_armTargets htargets
    have harms := (((ih₁.newLabels count).emits (hdispatch _)).bind _).trans ih₂
    have hround := ((harms.bind _).trans ih₃).inFlow
    exact ((((State.Reaches.refl _).newLabels 4).bind _).trans hround).bind _
  | sharedArm => exact .refl _
  | arm _ _ ih => exact ((State.Reaches.refl _).bind _).trans ih
  | guarded _ _ _ _ ih₁ ih₂ ih₃ ih₄ =>
    have hbody := ((State.Reaches.refl _).bind _).trans ih₁
    have hcleanups := (hbody.bind _).trans ih₂
    have hregion := ((hcleanups.jump _).trans ih₃).inCleanup
    exact ((((State.Reaches.refl _).newLabels 3).trans hregion).trans ih₄).bind _
  | noClauses => exact .refl _
  | @clause start stop _ _ _ _ _ ty _ _ s _ _ _ _ hslot _ _ _ ih₁ ih₂ ih₃ =>
    have hstart := ((State.Reaches.refl s).newLabels 2).bind (s.label 0)
    have hregion := hstart.emits (Call.plain_region start stop (s.label 0) (some ty.digest))
    have hclause := ((hregion.enterScope.storeNew hslot).trans ih₁).exitScope
    exact (((hclause.bind _).trans ih₂).jump _).trans ih₃
  | noCatchAll => exact .refl _
  | @catchAll _ ranges _ _ s _ _ ht hslot _ ih =>
    subst ht
    have hstart := ((State.Reaches.refl s).newLabels 1).bind (s.label 0) |>.regions (s.label 0) ranges
    refine ((hstart.enterSlotScope.takeName _).declaring hslot fun hlists => ?_).exitSlotScope
    have hbody := ((State.Reaches.refl _).setLocal hlists).trans ih
    exact ((hbody.getLocal hlists).exits rfl).forget
  | bodiless => exact .refl _
  | localRoutine _ _ houtput ih =>
    intro hvalid
    have hsteps := ih Slots.valid_empty
    obtain ⟨himplements, hroutines⟩ := hsteps.implements id houtput
    refine (State.Steps.refl _).routines hsteps.extends_pool ?_
    exact List.forall_mem_cons.mpr ⟨⟨_, himplements⟩, hroutines⟩
  | param _ hslot => exact (State.Reaches.refl _).declare hslot
  | @body decl _ _ _ _ _ ih ih' =>
    have hbody := (((State.Reaches.refl _).reserveAll _).trans ih).trans ih'
    have hclosed : Job.closes (.body decl) = decl.result.isVoid := rfl
    rw [hclosed]
    cases hvoid : decl.result.isVoid with
    | false => exact hbody.forget
    | true =>
      cases hends : decl.body.endsInTransfer with
      | false => exact hbody.exits rfl
      | true =>
        have htransfer : Job.closes (.statement decl.body) = true := hends
        rw [htransfer] at hbody
        exact hbody

end Lowers

namespace Lowering

/-- Every routine that is lowered, and every routine declared in it, has
well-formed code with respect to the pool that lowering leaves. Control does not
run off the end of a routine without a result. -/
theorem routine_implements {decl : RoutineDecl} {env : Env} {shared shared' : Shared}
    {lowered : Routine} {nested : List Routine}
    (h : routine Handlers.standard.process decl env shared = (.ok (lowered, nested), shared')) :
    lowered.Implements shared'.pool decl ∧
      ∀ other ∈ nested, ∃ inner, other.Implements shared'.pool inner := by
  obtain ⟨t, output, hbody, hfinish, hresult, rfl⟩ :=
    Derives.routine (Derives.process env) h
  have hsteps := hbody.reaches Slots.valid_empty
  have himplements := hsteps.implements id hfinish
  obtain ⟨rfl, rfl⟩ := Prod.mk.inj hresult
  exact himplements

/-- A return out of a switch in a region with a cleanup. -/
theorem routine_implements_guarded_return :
    ∃ decl : RoutineDecl, decl.body = .guarded
        (.switch none .int (.readLocal "key" Ty.int)
          [⟨some (.int 7), .ret none⟩, ⟨none, .breakTo none⟩]) []
        (some (.writeField (.object "Main") "done" Ty.bool none (.bool true))) ∧
      ∃ lowered nested shared', routine Handlers.standard.process decl ⟨.empty, {}⟩ .empty =
        (.ok (lowered, nested), shared') ∧ lowered.Implements shared'.pool decl ∧
          lowered.Closed := by
  refine ⟨⟨.object "Main", "run", [⟨"key", Ty.int⟩], Ty.void, true, _⟩, rfl, ?_⟩
  generalize hresult : routine Handlers.standard.process _ _ _ = result
  obtain ⟨lowered, shared', rfl⟩ := exists_ok hresult (by decide +kernel)
  have himplements := (routine_implements hresult).1
  exact ⟨lowered.1, lowered.2, shared', rfl, himplements, himplements.closed rfl⟩

end Lowering

end StackLowering
