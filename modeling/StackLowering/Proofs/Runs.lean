import Mathlib
import StackLowering.Lowering.Standard
import StackLowering.Proofs.Calls
/-!
Steps of lowering that succeed. What a successful step does is read off its
definition: a sequence goes through an intermediate state, and every primitive
step changes the state in one way.
-/

namespace StackLowering

namespace State

/-- Make a call on the assembler. -/
def emits (call : Call) (state : State) : State := state.onAssembler call.run

def withSlots (slots : Slots) (state : State) : State := { state with slots := slots }

/-- The label that is handed out after `index` others. -/
def label (index : Nat) (state : State) : Label := ⟨state.assembler.positions.size + index⟩

/-- Hand out labels. -/
def newLabels : Nat → State → State
  | 0, state => state
  | count + 1, state => (state.newLabels count).emits .newLabel

theorem newLabels_emits (count : Nat) (state : State) :
    (state.emits .newLabel).newLabels count = state.newLabels (count + 1) := by
  induction count with
  | zero => rfl
  | succ count ih => exact congrArg (emits .newLabel) ih

theorem slots_newLabels (count : Nat) (state : State) :
    (state.newLabels count).slots = state.slots := by
  induction count with
  | zero => rfl
  | succ count ih => exact ih

@[simp]
theorem size_newLabels (count : Nat) (state : State) :
    (state.newLabels count).assembler.positions.size =
      state.assembler.positions.size + count := by
  induction count with
  | zero => rfl
  | succ count ih =>
    simp only [newLabels, emits, onAssembler, Call.run, Assembler.newLabel, Array.size_push, ih]
    rfl

end State

variable {ty : Ty} {name : String} {method : Method} {label : Label} {decl : RoutineDecl}

namespace Lower

variable {α β : Type} {env : Env} {s s' : State}

/-- The step succeeds with a value and leaves the state `s'`. -/
def Runs (action : Lower α) (env : Env) (s : State) (value : α) (s' : State) : Prop :=
  action env s = (.ok value, s')

@[simp]
theorem runs_pure {value result : α} :
    Runs (pure value) env s result s' ↔ result = value ∧ s = s' := by
  constructor
  · rintro ⟨⟩
    exact ⟨rfl, rfl⟩
  · rintro ⟨rfl, rfl⟩
    rfl

theorem bind_apply (action : Lower α) (next : α → Lower β) (env : Env) (s : State) :
    (action >>= next) env s = match action env s with
      | (.ok value, m) => next value env m
      | (.error fault, m) => (.error fault, m) := by
  change (ExceptT.bindCont (fun value => next value env) (action env s).1 :
    StateM State (Except Fault β)) (action env s).2 = _
  rcases action env s with ⟨_ | _, m⟩ <;> rfl

theorem bind_of_runs {action : Lower α} {next : α → Lower β} {value : α}
    (h : Runs action env s value s') : (action >>= next) env s = next value env s' := by
  rw [bind_apply, h]

@[simp]
theorem runs_bind {action : Lower α} {next : α → Lower β} {result : β} :
    Runs (action >>= next) env s result s' ↔
      ∃ value m, Runs action env s value m ∧ Runs (next value) env m result s' := by
  rw [Runs, bind_apply]
  rcases hrun : action env s with ⟨fault | value, m⟩
  · constructor
    · rintro ⟨⟩
    · rintro ⟨value, m', haction, _⟩
      cases hrun.symm.trans haction
  · constructor
    · intro hnext
      exact ⟨value, m, hrun, hnext⟩
    · rintro ⟨other, m', haction, hnext⟩
      cases hrun.symm.trans haction
      exact hnext

@[simp]
theorem runs_throw {fault : Fault} {result : α} : ¬ Runs (throw fault) env s result s' := by
  rintro ⟨⟩

@[simp]
theorem runs_orFail {outcome : Except Fault α} {result : α} :
    Runs (orFail outcome) env s result s' ↔ outcome = .ok result ∧ s = s' := by
  cases outcome with
  | error fault => simp [orFail]
  | ok value =>
    simp only [orFail, runs_pure, Except.ok.injEq]
    rw [eq_comm]

@[simp]
theorem runs_get {result : State} : Runs get env s result s' ↔ s = result ∧ s = s' := by
  constructor
  · rintro ⟨⟩
    exact ⟨rfl, rfl⟩
  · rintro ⟨rfl, rfl⟩
    rfl

@[simp]
theorem runs_read {result : Env} : Runs read env s result s' ↔ env = result ∧ s = s' := by
  constructor
  · rintro ⟨⟩
    exact ⟨rfl, rfl⟩
  · rintro ⟨rfl, rfl⟩
    rfl

@[simp]
theorem runs_modifyGet {f : State → α × State} {result : α} :
    Runs (modifyGet f) env s result s' ↔ f s = (result, s') := by
  constructor
  · rintro ⟨⟩
    rfl
  · intro h
    change (Except.ok (f s).1, (f s).2) = _
    rw [h]

@[simp]
theorem runs_modify {f : State → State} {result : Unit} :
    Runs (modify f) env s result s' ↔ s' = f s := by
  constructor
  · rintro ⟨⟩
    rfl
  · rintro rfl
    rfl

theorem runs_bracket {enter exit : State → State} {action : Lower α} {result : α} :
    Runs (bracket enter exit action) env s result s' ↔
      ∃ m, Runs action env (enter s) result m ∧ s' = exit m := by
  simp only [Runs, bracket]
  rcases action env (enter s) with ⟨outcome, m⟩
  constructor
  · rintro ⟨⟩
    exact ⟨m, rfl, rfl⟩
  · rintro ⟨_, ⟨⟩, rfl⟩
    rfl

theorem runs_return {action : Lower α} {f : α → β} {value : α} {result : β}
    (h : ∀ {other m}, Runs action env s other m ↔ value = other ∧ s = m) :
    Runs (do return f (← action)) env s result s' ↔ result = f value ∧ s = s' := by
  simp only [runs_bind, h, runs_pure]
  constructor
  · rintro ⟨_, _, ⟨rfl, rfl⟩, hresult⟩
    exact hresult
  · intro hresult
    exact ⟨value, s, ⟨rfl, rfl⟩, hresult⟩

section Primitives

variable {result : Unit}

@[simp]
theorem runs_emit {f : Assembler → Assembler} :
    Runs (emit f) env s result s' ↔ s' = s.onAssembler f := runs_modify

@[simp]
theorem runs_op {opcode : Opcode} :
    Runs (op opcode) env s result s' ↔ s' = s.emits (.op opcode) := runs_modify

@[simp]
theorem runs_mark :
    Runs (mark label) env s result s' ↔ s' = s.emits (.bind label) := runs_modify

@[simp]
theorem runs_jump :
    Runs (jump label) env s result s' ↔ s' = s.emits (.jump .jump label) := runs_modify

@[simp]
theorem runs_discard : Runs (discard ty) env s result s' ↔ s' = s.discard ty :=
  runs_modify

@[simp]
theorem runs_newLabel :
    Runs newLabel env s label s' ↔ label = s.label 0 ∧ s' = s.emits .newLabel := by
  rw [newLabel, runs_modifyGet, Prod.mk.injEq, eq_comm, @eq_comm _ s']
  rfl

@[simp]
theorem runs_nest {nest : Nest} : Runs Lower.nest env s nest s' ↔ nest = env.nest ∧ s = s' :=
  runs_return runs_read

@[simp]
theorem runs_options {options : Options} :
    Runs Lower.options env s options s' ↔ options = env.options ∧ s = s' :=
  runs_return runs_read

@[simp]
theorem runs_currentType :
    Runs currentType env s ty s' ↔ ty = s.currentType ∧ s = s' :=
  runs_return runs_get

@[simp]
theorem runs_resolve {resolved : Ty} :
    Runs (resolve ty) env s resolved s' ↔
      env.nest.resolve s.currentType ty = .ok resolved ∧ s = s' := by
  simp [resolve, and_assoc]

@[simp]
theorem runs_resolveAll {types resolved : List Ty} :
    Runs (resolveAll types) env s resolved s' ↔
      env.nest.resolveAll s.currentType types = .ok resolved ∧ s = s' := by
  simp [resolveAll, and_assoc]

@[simp]
theorem runs_resolveSignature {signature resolved : Signature} :
    Runs (resolveSignature signature) env s resolved s' ↔
      env.nest.resolveSignature s.currentType signature = .ok resolved ∧ s = s' := by
  simp [resolveSignature, and_assoc]

@[simp]
theorem runs_declare {slot : UInt16} :
    Runs (declare name ty) env s slot s' ↔
      ∃ slots, s.slots.declare name ty = (.ok slot, slots) ∧ s' = s.withSlots slots := by
  simp only [declare, runs_bind, runs_modifyGet, runs_orFail, Prod.mk.injEq]
  constructor
  · rintro ⟨outcome, m, ⟨houtcome, hm⟩, rfl, rfl⟩
    exact ⟨(s.slots.declare name ty).2, Prod.ext houtcome rfl, hm.symm⟩
  · rintro ⟨slots, hdeclare, rfl⟩
    exact ⟨.ok slot, s.withSlots slots, by rw [hdeclare]; exact ⟨rfl, rfl⟩, rfl, rfl⟩

@[simp]
theorem runs_require {tree : Tree} {slot : UInt16} :
    Runs (require name ty tree) env s slot s' ↔
      s.slots.require name ty = .ok slot ∧ s = s' := by
  have hmap (outcome : Except Fault UInt16) :
      outcome.mapError (·.withTree tree) = .ok slot ↔ outcome = .ok slot := by
    cases outcome <;> simp [Except.mapError]
  simp only [require, runs_bind, runs_get, runs_orFail]
  constructor
  · rintro ⟨_, _, ⟨rfl, rfl⟩, hslot, rfl⟩
    exact ⟨(hmap _).mp hslot, rfl⟩
  · rintro ⟨hslot, rfl⟩
    exact ⟨_, _, ⟨rfl, rfl⟩, (hmap _).mpr hslot, rfl⟩

@[simp]
theorem runs_reserve :
    Runs (reserve name) env s result s' ↔ s' = s.onSlots (·.reserve name) := runs_modify

@[simp]
theorem runs_uniqueName {base : String} :
    Runs (uniqueName base) env s name s' ↔
      name = (s.slots.uniqueName base).1 ∧ s' = s.withSlots (s.slots.uniqueName base).2 := by
  rw [uniqueName, runs_modifyGet, Prod.mk.injEq, eq_comm, @eq_comm _ s']
  rfl

@[simp]
theorem runs_bridged {access : Tree} {use : Option Tree} :
    Runs (bridged access) env s use s' ↔ s.bridged env access = (use, s') := by
  simp [bridged, and_assoc]

variable {action : Lower Unit}

@[simp]
theorem runs_inExpression :
    Runs (inExpression action) env s result s' ↔
      ∃ m, Runs action env s.enterExpression result m ∧ s' = m.exitExpression := runs_bracket

@[simp]
theorem runs_inStatement :
    Runs (inStatement action) env s result s' ↔
      ∃ m, Runs action env (s.withDepth 0) result m ∧ s' = m.withDepth s.expressionDepth :=
  runs_bracket

@[simp]
theorem runs_withScope :
    Runs (withScope action) env s result s' ↔
      ∃ m, Runs action env s.enterScope result m ∧ s' = m.exitScope := runs_bracket

@[simp]
theorem runs_withSlotScope :
    Runs (withSlotScope action) env s result s' ↔
      ∃ m, Runs action env s.enterSlotScope result m ∧ s' = m.exitSlotScope := runs_bracket

end Primitives

end Lower

namespace Lowering

open Lower

variable {recur : Recur} {env : Env} {s s' : State}

/-- A routine is lowered where its body is and its code can be finished. -/
theorem routine_eq_ok {shared shared' : Shared} {result : Routine × List Routine} :
    routine recur decl env shared = (.ok result, shared') ↔
      ∃ t output, Runs (routineBody recur decl) env (.initial env.nest shared decl.info) () t ∧
        t.finish = .ok output ∧ result = assembleRoutine decl output ∧ shared' = t.shared := by
  unfold routine Runs
  rcases routineBody recur decl env (.initial env.nest shared decl.info) with ⟨outcome, t⟩
  simp only [Prod.mk.injEq, bind_eq_ok]
  constructor
  · rintro ⟨⟨_, rfl, output, houtput, hresult⟩, rfl⟩
    cases hresult
    exact ⟨t, output, rfl, houtput, rfl, rfl⟩
  · rintro ⟨_, output, ⟨rfl, rfl⟩, houtput, rfl, rfl⟩
    exact ⟨⟨(), rfl, output, houtput, rfl⟩, rfl⟩

/-- Lower a copy of the first of the cleanups that are set aside. -/
def copyFirst (recur : Recur) : List Cleanup → Lower Unit
  | cleanup :: _ => recur.inScope cleanup.body
  | [] => pure ()

/-- Lower what follows the body of a branch. -/
def elseBranch (recur : Recur) (elseLabel done : Label) (otherwise : Option Tree) :
    Lower Unit := do
  if let some tree := otherwise then
    jump done
    mark elseLabel
    recur.inScope tree
  mark done

/-- Return a value whose type is known. -/
def returnTyped (recur : Recur) (value : Tree) (ty : Ty) : Lower Unit := do
  recur.value value
  if (← get).cleanups.isEmpty then
    emit (.ret ty)
  else
    withSlotScope do
      let name ← uniqueName "$result"
      let slot ← declare name ty
      emit (.setLocal slot)
      inlineCleanups recur 0
      emit (.getLocal slot)
      emit (.ret ty)

/-- A routine declared in a body uses what routines share, also if it fails. -/
theorem localRoutine_apply (hdecl : RoutineDecl.ofMethod? s.currentType method = some decl) :
    localRoutine recur method env s = match routine recur decl env s.shared with
      | (.ok (lowered, nested), shared) => (.ok (), { s.withShared shared with
          localRoutines := s.localRoutines ++ lowered :: nested })
      | (.error fault, shared) => (.error fault, s.withShared shared) := by
  have hcurrent : currentType env s = (.ok s.currentType, s) := rfl
  rw [localRoutine, bind_apply, hcurrent]
  simp only [hdecl]
  let lower : Lower (Except Fault (Routine × List Routine)) := modifyGet fun state =>
    ((routine recur decl env state.shared).1,
      state.withShared (routine recur decl env state.shared).2)
  have hlower : lower env s = (.ok (routine recur decl env s.shared).1,
      s.withShared (routine recur decl env s.shared).2) := rfl
  let keep : Except Fault (Routine × List Routine) → Lower Unit := fun result => do
    let lowered ← orFail result
    modify fun state =>
      { state with localRoutines := state.localRoutines ++ lowered.1 :: lowered.2 }
  change (lower >>= keep) env s = _
  rw [bind_apply, hlower]
  rcases routine recur decl env s.shared with ⟨fault | result, shared⟩ <;> rfl

/-- A routine declared in a body is lowered with what routines share. -/
theorem runs_localRoutine (hdecl : RoutineDecl.ofMethod? s.currentType method = some decl) :
    Runs (localRoutine recur method) env s () s' ↔ ∃ lowered nested shared,
      routine recur decl env s.shared = (.ok (lowered, nested), shared) ∧
        s' = { s.withShared shared with
          localRoutines := s.localRoutines ++ lowered :: nested } := by
  unfold Runs
  rw [localRoutine_apply hdecl]
  rcases routine recur decl env s.shared with ⟨fault | ⟨lowered, nested⟩, shared⟩
  · constructor
    · intro h
      cases h
    · rintro ⟨_, _, _, hresult, _⟩
      cases hresult
  · constructor
    · intro h
      cases h
      exact ⟨lowered, nested, shared, rfl, rfl⟩
    · rintro ⟨_, _, _, hresult, rfl⟩
      cases hresult
      rfl

theorem localRoutine_apply_bodiless (hdecl : RoutineDecl.ofMethod? s.currentType method = none) :
    localRoutine recur method env s = (.ok (), s) := by
  have hcurrent : currentType env s = (.ok s.currentType, s) := rfl
  rw [localRoutine, bind_apply, hcurrent]
  simp only [hdecl]
  rfl

theorem runs_localRoutine_bodiless (hdecl : RoutineDecl.ofMethod? s.currentType method = none) :
    Runs (localRoutine recur method) env s () s' ↔ s' = s := by
  unfold Runs
  rw [localRoutine_apply_bodiless hdecl, Prod.mk.injEq]
  exact ⟨fun h => h.2.symm, fun h => ⟨rfl, h.symm⟩⟩

theorem exists_ok {ε α σ : Type} {expected result : Except ε α × σ} (hresult : expected = result)
    (h : expected.1.isOk = true) : ∃ value state, result = (.ok value, state) := by
  obtain ⟨outcome, state⟩ := result
  subst hresult
  cases outcome with
  | error fault => cases h
  | ok value => exact ⟨value, state, rfl⟩

/-- Whether a routine is lowered, and whether its code is as it should be, can be
computed. -/
theorem exists_lowered {decl : RoutineDecl} {env : Env} {shared : Shared}
    {Holds : Routine → Shared → Prop} [∀ lowered shared', Decidable (Holds lowered shared')]
    (h : (routine Handlers.standard.process decl env shared).1.toOption.any (fun lowered =>
      Holds lowered.1 (routine Handlers.standard.process decl env shared).2) = true) :
    ∃ lowered nested shared', routine Handlers.standard.process decl env shared =
      (.ok (lowered, nested), shared') ∧ Holds lowered shared' := by
  rcases hresult : routine Handlers.standard.process decl env shared with ⟨fault | lowered, shared'⟩
  · rw [hresult] at h
    cases h
  · rw [hresult] at h
    exact ⟨lowered.1, lowered.2, shared', rfl, of_decide_eq_true h⟩

end Lowering

theorem Handlers.run_succ (depth : Nat) (tree : Tree) : standard.run (depth + 1) tree =
    Lowering.tree (standard.run depth) tree := if_pos rfl

theorem Handlers.exists_run (tree : Tree) (env : Env) (s : State) : ∃ depth,
    standard.process tree env s = standard.run (depth + 8) tree env s := by
  have hbound : 8 ≤ depthBound env.nest s.cleanups tree.size :=
    (Nat.le_mul_of_pos_right 8 (Nat.succ_pos _)).trans
      (Nat.mul_le_mul_right _ (Nat.le_add_right 8 _))
  obtain ⟨depth, hdepth⟩ := Nat.exists_eq_add_of_le' hbound
  refine ⟨depth, ?_⟩
  rw [← hdepth]
  rfl

end StackLowering
