import StackLowering.Proofs.RelatedHandlers
/-!
Lowering in lockstep. Two lowerings that start in corresponding states, and that
lower further trees in corresponding ways, return the same values and go through
corresponding states. What corresponds is left open: the context of the code is
the same on both sides, and a relation on the code itself has to be kept by
every call on an assembler.
-/

namespace StackLowering

/-- How two lowerings may differ. -/
structure Coupling (env : Env) where
  /-- The code and the local routines on both sides correspond. -/
  code : Assembler → List Routine → Assembler → List Routine → Prop
  /-- The bridges, which are the same on both sides, satisfy this. -/
  registry : Bridges → Prop
  /-- The second side may fail where the first does not. -/
  lenient : Prop
  size_eq : ∀ {left right : Assembler} {locals others : List Routine},
    code left locals right others → right.positions.size = left.positions.size
  run : ∀ {left right : Assembler} {locals others : List Routine} {call : Call}, call.Regular →
    code left locals right others → code (call.run left) locals (call.run right) others
  access : ∀ {bridges bridges' : Bridges} {requester : Ty} {access use : Tree},
    registry bridges → bridges.access? env.nest requester access = some (use, bridges') →
      registry bridges'

/-- The states correspond, and hold the same context and the given data. -/
structure State.Coupled {env : Env} (coupling : Coupling env) (data : Scopes) (s t : State) :
    Prop where
  code : coupling.code s.assembler s.localRoutines t.assembler t.localRoutines
  registry : coupling.registry s.bridges
  bridges : t.bridges = s.bridges
  data_left : s.data = data
  data_right : t.data = data
  flows : t.flows = s.flows
  slots : t.slots = s.slots
  cleanups : t.cleanups = s.cleanups
  depth : t.expressionDepth = s.expressionDepth

section

variable {env : Env} {coupling : Coupling env} {data : Scopes}

namespace State.Coupled

variable {s t : State}

section

variable (h : s.Coupled coupling data t)

include h

theorem label (index : Nat) : t.label index = s.label index :=
  congrArg (fun size => Label.mk (size + index)) (coupling.size_eq h.code)

theorem data_eq : t.data = s.data :=
  h.data_right.trans h.data_left.symm

theorem currentType : t.currentType = s.currentType :=
  congrArg (fun data : Scopes => (data.get? .enclosingType).getD Ty.root) h.data_eq

theorem emits (call : Call) (hregular : call.Regular) :
    (s.emits call).Coupled coupling data (t.emits call) :=
  { h with code := coupling.run hregular h.code }

theorem withSlots (slots : Slots) : (s.withSlots slots).Coupled coupling data (t.withSlots slots) :=
  { h with slots := rfl }

theorem onSlots (f : Slots → Slots) : (s.onSlots f).Coupled coupling data (t.onSlots f) :=
  { h with slots := congrArg f h.slots }

theorem enterScope : s.enterScope.Coupled coupling data t.enterScope :=
  (h.emits .enterFrame trivial).onSlots Slots.pushScope

theorem exitScope : s.exitScope.Coupled coupling data t.exitScope :=
  (h.onSlots Slots.popScope).emits .exitFrame trivial

theorem withDepth (depth : Nat) : (s.withDepth depth).Coupled coupling data (t.withDepth depth) :=
  { h with depth := rfl }

theorem enterExpression : s.enterExpression.Coupled coupling data t.enterExpression :=
  { h with depth := congrArg (· + 1) h.depth }

theorem exitExpression : s.exitExpression.Coupled coupling data t.exitExpression :=
  { h with depth := congrArg (· - 1) h.depth }

theorem discard (ty : Ty) : (s.discard ty).Coupled coupling data (t.discard ty) := by
  unfold State.discard State.isValueUsed
  rw [h.depth]
  split_ifs
  · exact h
  · exact h.emits (.pop ty.width) trivial

theorem pushFlow (flow : Flow) : (s.pushFlow flow).Coupled coupling data (t.pushFlow flow) :=
  { h with flows := congrArg (flow :: ·) h.flows }

theorem popFlow : s.popFlow.Coupled coupling data t.popFlow :=
  { h with flows := congrArg List.tail h.flows }

theorem withCleanups (cleanups : List Cleanup) :
    State.Coupled coupling data { s with cleanups := cleanups } { t with cleanups := cleanups } :=
  { h with cleanups := rfl }

theorem pushCleanup (body : Tree) :
    (s.pushCleanup body).Coupled coupling data (t.pushCleanup body) :=
  { h with cleanups := by simp only [State.pushCleanup, h.cleanups, h.flows] }

theorem restoreCleanups (taken : List Cleanup) :
    (s.restoreCleanups taken).Coupled coupling data (t.restoreCleanups taken) :=
  { h with cleanups := congrArg (· ++ taken) h.cleanups }

theorem bridged (access : Tree) : (t.bridged env access).1 = (s.bridged env access).1 ∧
      (s.bridged env access).2.Coupled coupling data (t.bridged env access).2 := by
  unfold State.bridged
  rw [h.bridges, h.currentType]
  split_ifs
  · cases haccess : s.bridges.access? env.nest s.currentType access with
    | none => exact ⟨rfl, h⟩
    | some found =>
      exact ⟨rfl, { h with registry := coupling.access h.registry haccess, bridges := rfl }⟩
  · exact ⟨rfl, h⟩

end

end State.Coupled

namespace Lower

variable {α β : Type}

/-- Where the first action succeeds, the second one does so with the same value
and leaves a corresponding state, or fails if that is allowed. -/
def Follows (coupling : Coupling env) (data : Scopes) (first second : Lower α) : Prop :=
  ∀ ⦃s t : State⦄, s.Coupled coupling data t → ∀ ⦃value : α⦄ ⦃s' : State⦄,
    Runs first env s value s' →
      (∃ t', Runs second env t value t' ∧ s'.Coupled coupling data t') ∨
        coupling.lenient ∧ ∀ other t', ¬ Runs second env t other t'

namespace Follows

variable {first second : Lower α}

theorem pure (value : α) : Follows coupling data (pure value) (pure value) := by
  intro s t hst result s' hrun
  obtain ⟨rfl, rfl⟩ := runs_pure.mp hrun
  exact .inl ⟨t, runs_pure.mpr ⟨rfl, rfl⟩, hst⟩

theorem throw (fault : Fault) (second : Lower α) :
    Follows coupling data (throw fault) second :=
  fun _ _ _ _ _ hrun => (runs_throw hrun).elim

/-- A sequence; what comes next may use that the first part ran. -/
theorem bind_runs {next next' : α → Lower β} (h : Follows coupling data first second)
    (hnext : ∀ {s t value s'}, s.Coupled coupling data t → Runs first env s value s' →
      Follows coupling data (next value) (next' value)) :
    Follows coupling data (first >>= next) (second >>= next') := by
  intro s t hst result s' hrun
  obtain ⟨value, m, hfirst, hrest⟩ := runs_bind.mp hrun
  rcases h hst hfirst with ⟨m', hsecond, hm⟩ | ⟨hlenient, hfails⟩
  · rcases hnext hst hfirst hm hrest with ⟨t', hrest', ht'⟩ | ⟨hlenient, hfails⟩
    · exact .inl ⟨t', runs_bind.mpr ⟨value, m', hsecond, hrest'⟩, ht'⟩
    · refine .inr ⟨hlenient, fun other t' hother => ?_⟩
      obtain ⟨value', m'', hsecond', hrest'⟩ := runs_bind.mp hother
      cases hsecond.symm.trans hsecond'
      exact hfails other t' hrest'
  · refine .inr ⟨hlenient, fun other t' hother => ?_⟩
    obtain ⟨value', m', hsecond, _⟩ := runs_bind.mp hother
    exact hfails value' m' hsecond

theorem of_states (h : ∀ {s t : State}, s.Coupled coupling data t → ∃ action action' : Lower α,
    first env s = action env s ∧ second env t = action' env t ∧
      Follows coupling data action action') : Follows coupling data first second := by
  intro s t hst value s' hrun
  obtain ⟨action, action', hfirst, hsecond, hfollows⟩ := h hst
  rcases hfollows hst (hfirst.symm.trans hrun) with ⟨t', hrun', ht'⟩ | ⟨hlenient, hfails⟩
  · exact .inl ⟨t', hsecond.trans hrun', ht'⟩
  · exact .inr ⟨hlenient, fun other t' hother => hfails other t' (hsecond.symm.trans hother)⟩

theorem get {next next' : State → Lower β}
    (hnext : ∀ {s t : State}, s.Coupled coupling data t →
      Follows coupling data (next s) (next' t)) :
    Follows coupling data (MonadState.get >>= next) (MonadState.get >>= next') :=
  of_states fun {s t} hst => ⟨next s, next' t, rfl, rfl, hnext hst⟩

theorem of_eq (h : ∀ {s t : State}, s.Coupled coupling data t → ∀ {value : α} {s' : State},
    Runs first env s value s' → ∃ t', Runs second env t value t' ∧ s'.Coupled coupling data t') :
    Follows coupling data first second :=
  fun _ _ hst _ _ hrun => .inl (h hst hrun)

theorem modify {f : State → State}
    (h : ∀ {s t : State}, s.Coupled coupling data t → (f s).Coupled coupling data (f t)) :
    Follows coupling data (modify f) (modify f) := by
  refine of_eq fun hst _ _ hrun => ?_
  rw [runs_modify.mp hrun]
  exact ⟨_, runs_modify.mpr rfl, h hst⟩

theorem emit (call : Call) (hregular : call.Regular) :
    Follows coupling data (Lower.emit call.run) (Lower.emit call.run) :=
  modify fun hst => hst.emits call hregular

theorem reads {f : Env → α} :
    Follows coupling data (do return f (← read)) (do return f (← read)) := by
  refine .of_eq fun hst _ _ hrun => ?_
  cases hrun
  exact ⟨_, rfl, hst⟩

theorem discard (ty : Ty) : Follows coupling data (Lower.discard ty) (Lower.discard ty) :=
  modify fun hst => hst.discard ty

theorem newLabel : Follows coupling data Lower.newLabel Lower.newLabel := by
  refine of_eq fun hst _ _ hrun => ?_
  obtain ⟨rfl, rfl⟩ := runs_newLabel.mp hrun
  exact ⟨_, runs_newLabel.mpr ⟨(hst.label 0).symm, rfl⟩, hst.emits .newLabel trivial⟩

theorem declare (name : String) (ty : Ty) :
    Follows coupling data (Lower.declare name ty) (Lower.declare name ty) := by
  refine of_eq fun hst _ _ hrun => ?_
  obtain ⟨slots, hslot, rfl⟩ := runs_declare.mp hrun
  rw [← hst.slots] at hslot
  exact ⟨_, runs_declare.mpr ⟨slots, hslot, rfl⟩, hst.withSlots slots⟩

theorem require (name : String) (ty : Ty) (tree : Tree) :
    Follows coupling data (Lower.require name ty tree) (Lower.require name ty tree) := by
  refine of_eq fun hst _ _ hrun => ?_
  obtain ⟨hslot, rfl⟩ := runs_require.mp hrun
  rw [← hst.slots] at hslot
  exact ⟨_, runs_require.mpr ⟨hslot, rfl⟩, hst⟩

theorem reserve (name : String) :
    Follows coupling data (Lower.reserve name) (Lower.reserve name) :=
  modify fun hst => hst.onSlots _

theorem uniqueName (base : String) :
    Follows coupling data (Lower.uniqueName base) (Lower.uniqueName base) := by
  refine of_eq fun hst _ _ hrun => ?_
  obtain ⟨rfl, rfl⟩ := runs_uniqueName.mp hrun
  rw [← hst.slots]
  exact ⟨_, runs_uniqueName.mpr ⟨rfl, rfl⟩, hst.withSlots _⟩

theorem bridged (access : Tree) :
    Follows coupling data (Lower.bridged access) (Lower.bridged access) := by
  refine of_eq fun {s t} hst _ _ hrun => ?_
  have hbridged := runs_bridged.mp hrun
  obtain ⟨huse, hstates⟩ := hst.bridged access
  rw [hbridged] at huse hstates
  exact ⟨(t.bridged env access).2, runs_bridged.mpr (Prod.ext huse rfl), hstates⟩

theorem bracket {enter exit enter' exit' : State → State}
    (henter : ∀ {s t : State}, s.Coupled coupling data t →
      (enter s).Coupled coupling data (enter' t))
    (hexit : ∀ {s t : State}, s.Coupled coupling data t →
      (exit s).Coupled coupling data (exit' t)) (h : Follows coupling data first second) :
    Follows coupling data (Lower.bracket enter exit first) (Lower.bracket enter' exit' second) := by
  intro s t hst value s' hrun
  obtain ⟨m, hfirst, rfl⟩ := runs_bracket.mp hrun
  rcases h (henter hst) hfirst with ⟨m', hsecond, hm⟩ | ⟨hlenient, hfails⟩
  · exact .inl ⟨_, runs_bracket.mpr ⟨m', hsecond, rfl⟩, hexit hm⟩
  · refine .inr ⟨hlenient, fun other t' hother => ?_⟩
    obtain ⟨m', hsecond, _⟩ := runs_bracket.mp hother
    exact hfails other m' hsecond

theorem inExpression (h : Follows coupling data first second) :
    Follows coupling data (Lower.inExpression first) (Lower.inExpression second) :=
  h.bracket State.Coupled.enterExpression State.Coupled.exitExpression

theorem inStatement (h : Follows coupling data first second) :
    Follows coupling data (Lower.inStatement first) (Lower.inStatement second) := by
  refine of_states fun {s t} hst => ?_
  refine ⟨Lower.bracket (State.withDepth 0) (State.withDepth s.expressionDepth) first,
    Lower.bracket (State.withDepth 0) (State.withDepth s.expressionDepth) second, rfl, ?_, ?_⟩
  · rw [← hst.depth]
    rfl
  · exact h.bracket (fun hst => hst.withDepth 0) (fun hst => hst.withDepth s.expressionDepth)

theorem withScope (h : Follows coupling data first second) :
    Follows coupling data (Lower.withScope first) (Lower.withScope second) :=
  h.bracket State.Coupled.enterScope State.Coupled.exitScope

theorem withSlotScope (h : Follows coupling data first second) :
    Follows coupling data (Lower.withSlotScope first) (Lower.withSlotScope second) :=
  h.bracket (fun hst => hst.onSlots _) (fun hst => hst.onSlots _)

theorem popCleanup :
    Follows coupling data (modifyGet State.popCleanup) (modifyGet State.popCleanup) := by
  refine .of_eq fun {s t} hst _ _ hrun => ?_
  have hpopped := runs_modifyGet.mp hrun
  cases hpopped
  refine ⟨t.popCleanup.2, runs_modifyGet.mpr ?_, ?_⟩
  · simp only [State.popCleanup, hst.cleanups]
  · exact { hst with cleanups := congrArg List.dropLast hst.cleanups }

theorem inFlow (flow : Flow) {first second : Lower α} (h : Follows coupling data first second) :
    Follows coupling data (Lower.inFlow flow first) (Lower.inFlow flow second) :=
  (Follows.modify fun hst => hst.pushFlow flow).bind_runs fun _ _ => h.bind_runs fun _ _ =>
    (Follows.modify State.Coupled.popFlow).bind_runs fun _ _ => .pure _

theorem inCleanup (body : Tree) {first second : Lower α} (h : Follows coupling data first second) :
    Follows coupling data (Lower.inCleanup body first) (Lower.inCleanup body second) :=
  (Follows.modify fun hst => hst.pushCleanup body).bind_runs fun _ _ => h.bind_runs fun _ _ =>
    popCleanup.bind_runs fun _ _ => .pure _

theorem setAside (index : Nat) {action action' : List Cleanup → Lower Unit}
    (h : ∀ taken, Follows coupling data (action taken) (action' taken)) :
    Follows coupling data (Lower.setAside index action) (Lower.setAside index action') := by
  refine .of_states fun {s t} hst => ?_
  let aside := fun action : List Cleanup → Lower Unit => Lower.bracket
    (fun state => { state with cleanups := s.cleanups.take index })
    (State.restoreCleanups (s.cleanups.drop index)) (action (s.cleanups.drop index))
  refine ⟨aside action, aside action', rfl, ?_, ?_⟩
  · simp only [aside, ← hst.cleanups]
    rfl
  · exact (h _).bracket (fun hst => hst.withCleanups _) (fun hst => hst.restoreCleanups _)

end Follows

/-- Following is a relation between lowerings. -/
def follows (coupling : Coupling env) (data : Scopes) :
    Congruence env fun s => s.data = data ∧ coupling.registry s.bridges where
  Rel := Follows coupling data
  pure := .pure
  throw := by
    rintro _ fault _ rfl
    exact .throw fault _
  bind := fun h hnext => h.bind_runs fun {s _ value s'} hst hrun =>
    hnext value ⟨s, s', ⟨hst.data_left, hst.registry⟩, hrun⟩
  get := fun _ hnext => .get fun {s t} hst =>
    hnext s t ⟨hst.data_left, hst.registry⟩ ⟨hst.flows.symm, hst.cleanups.symm, hst.data_eq.symm⟩
  nest := .reads
  tableLimit := .reads
  emit := fun call hinner => .emit call hinner.regular
  newLabel := .newLabel
  uniqueName := .uniqueName
  inFlow := .inFlow
  withScope := .withScope
  withSlotScope := .withSlotScope

theorem exact_follows : (follows coupling data).Exact where
  around := id
  declare := .declare
  require := .require
  reserve := .reserve
  bridged := .bridged
  inCleanup := .inCleanup
  setAside := .setAside

end Lower

/-- Both sides lower each tree in corresponding ways. -/
abbrev Recur.Follows (coupling : Coupling env) (data : Scopes) (recur recur' : Recur) : Prop :=
  ∀ tree, Lower.Follows coupling data (recur tree) (recur' tree)

namespace Recur.Follows

open Lower

variable {recur recur' : Recur}

theorem related (h : Recur.Follows coupling data recur recur') :
    Recur.Related (follows coupling data) Eq recur recur' :=
  .of_exact exact_follows (fun tree => (h tree).inExpression) fun tree => (h tree).inStatement

theorem tree (h : Recur.Follows coupling data recur recur')
    (hlocal : ∀ method, Lower.Follows coupling data (Lowering.localRoutine recur method)
      (Lowering.localRoutine recur' method)) :
    Recur.Follows coupling data (Lowering.tree recur) (Lowering.tree recur') :=
  fun _ => h.related.tree exact_follows (fun _ _ _ _ => .reads) .discard h
    fun method _ => hlocal method

theorem process {handlers handlers' : Handlers}
    (h : ∀ depth, Recur.Follows coupling data (handlers.run depth) (handlers'.run depth)) :
    Recur.Follows coupling data handlers.process handlers'.process :=
  fun tree => Congruence.process (R := follows coupling data) exact_follows fun depth => h depth tree

end Recur.Follows

end

end StackLowering
