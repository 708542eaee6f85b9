import StackLowering.Proofs.Binders
import StackLowering.Proofs.RoutineCode
/-!
Relations between lowerings. A relation that holds of the primitive steps and is
kept by sequences and scopes holds of what a handler does, so long as it holds
of the way in which further trees are lowered. What is left open is how two
lowerings compare, in which states they start, which trees they are given, and
what happens to the value that a handler leaves.
-/

namespace StackLowering

/-- A regular call other than the brackets of code, which only scopes make. -/
def Call.Inner : Call → Prop
  | .enterFrame | .exitFrame => False
  | call => call.Regular

theorem Call.Inner.regular {call : Call} (h : call.Inner) : call.Regular := by
  cases call with
  | enterFrame | exitFrame => exact h.elim
  | _ => exact h

theorem Call.Computes.inner {named : UInt16 → Prop} {call : Call} (h : call.Computes named) :
    call.Inner := by
  cases call with
  | op | digest => exact h
  | constant | int | bool | dup | invoke | create | getLocal | setLocal | incLocal => trivial
  | _ => exact h.elim

theorem inner_directAccess (access : Tree) : (∀ call ∈ (directAccess access).first, call.Inner) ∧
    ∀ call ∈ (directAccess access).last, call.Inner := by
  obtain ⟨hfirst, hlast⟩ := @computes_directAccess (fun _ => False) access
  exact ⟨fun call hcall => (hfirst call hcall).inner, fun call hcall => (hlast call hcall).inner⟩

theorem Operates.inner {env : Env} {s : State} {tree : Tree} {operation : Operation}
    (h : Operates env s tree operation) :
    (∀ call ∈ operation.first, call.Inner) ∧ ∀ call ∈ operation.last, call.Inner := by
  obtain ⟨hfirst, hlast⟩ := h.computes (fun _ => True) fun _ => trivial
  exact ⟨fun call hcall => (hfirst call hcall).inner, fun call hcall => (hlast call hcall).inner⟩

theorem inner_dispatchCall {encoding : Switch.Encoding} {otherwise : Label}
    {targets : List (Int32 × Label)} (h : (dispatchCall encoding otherwise targets).Regular) :
    (dispatchCall encoding otherwise targets).Inner := by
  revert h
  unfold dispatchCall
  split <;> exact id

/-- The same is around the code. -/
structure State.SameAround (s t : State) : Prop where
  flows : s.flows = t.flows
  cleanups : s.cleanups = t.cleanups
  data : s.data = t.data

/-- What handlers see around the code is the same. They do not see which cleanups
there are, but how deep each of them is nested. -/
structure State.Alongside (s t : State) : Prop where
  flows : s.flows = t.flows
  depths : s.cleanups.map Cleanup.flowDepth = t.cleanups.map Cleanup.flowDepth
  owner : s.currentType = t.currentType
  isVoid : s.result.isVoid = t.result.isVoid

namespace State

variable {s t : State}

theorem SameAround.refl (s : State) : s.SameAround s := ⟨rfl, rfl, rfl⟩

theorem SameAround.result (h : s.SameAround t) : s.result = t.result := by
  rw [State.result, State.routine?, h.data]
  rfl

theorem SameAround.alongside (h : s.SameAround t) : s.Alongside t where
  flows := h.flows
  depths := congrArg _ h.cleanups
  owner := by
    rw [State.currentType, h.data]
    rfl
  isVoid := congrArg _ h.result

theorem Alongside.length (h : s.Alongside t) : s.cleanups.length = t.cleanups.length := by
  simpa using congrArg List.length h.depths

theorem Alongside.firstCleanupInside (h : s.Alongside t) (depth : Nat) :
    s.firstCleanupInside depth = t.firstCleanupInside depth := by
  have hinside (s : State) : s.firstCleanupInside depth =
      (s.cleanups.map Cleanup.flowDepth).findIdx (depth < ·) := by
    rw [List.findIdx_map]
    rfl
  rw [hinside, hinside, h.depths]

end State

namespace Lower

variable {α β γ : Type} {env : Env} {domain : State → Prop}

/-- A value that the step can return from a state of the domain. -/
def Yields (env : Env) (domain : State → Prop) (action : Lower α) (value : α) : Prop :=
  ∃ s s', domain s ∧ Runs action env s value s'

/-- Lower with the cleanups from index `index` on set aside. -/
def setAside (index : Nat) (action : List Cleanup → Lower Unit) : Lower Unit := fun env state =>
  let (taken, inner) := state.takeCleanups index
  bracket (fun _ => inner) (State.restoreCleanups taken) (action taken) env state

/-- Lower inside a loop or switch. -/
def inFlow (flow : Flow) (action : Lower α) : Lower α := do
  modify (State.pushFlow flow)
  let value ← action
  modify State.popFlow
  return value

/-- Lower inside a region with a cleanup, and return the cleanup that is popped. -/
def inCleanup (body : Tree) (action : Lower α) : Lower (α × Option Cleanup) := do
  modify (State.pushCleanup body)
  let value ← action
  let pending ← modifyGet State.popCleanup
  return (value, pending)

/-- The size that dense tables may have. -/
def tableLimit : Lower Nat := return (← options).maxTableEntries

/-- Declare the variable of a returned value. -/
def keepResult (ty : Ty) : Lower UInt16 := do declare (← uniqueName "$result") ty

/-- A relation between steps of lowering that start in states of the domain. -/
structure Congruence (env : Env) (domain : State → Prop) where
  Rel : {α : Type} → Lower α → Lower α → Prop
  /-- Faults that are not told apart. Handlers fail with ordinary ones only. -/
  Faults : Fault → Fault → Prop := Eq
  /-- States that both sides can be in at the same time. -/
  Around : State → State → Prop := State.SameAround
  faults : ∀ fault : Fault, fault.isOrdinary = true → Faults fault fault := by
    exact fun _ _ => rfl
  alongside : ∀ {s t : State}, Around s t → s.Alongside t := by
    exact State.SameAround.alongside
  pure : ∀ {α : Type} (value : α), Rel (pure value) (pure value)
  throw : ∀ {α : Type} {fault fault' : Fault}, Faults fault fault' →
    Rel (throw fault : Lower α) (throw fault')
  bind : ∀ {α β : Type} {first second : Lower α} {next next' : α → Lower β}, Rel first second →
    (∀ value, Yields env domain first value → Rel (next value) (next' value)) →
      Rel (first >>= next) (second >>= next')
  /-- Of the state, handlers only see what is around the code. -/
  get : ∀ {α : Type} {next next' : State → Lower α},
    (∀ {s t : State}, s.SameAround t → next s = next t) →
    (∀ s t, domain s → Around s t → Rel (next s) (next' t)) → Rel (get >>= next) (get >>= next')
  nest : Rel nest nest
  tableLimit : Rel tableLimit tableLimit
  emit : ∀ call : Call, call.Inner → Rel (emit call.run) (emit call.run)
  newLabel : Rel newLabel newLabel
  uniqueName : ∀ base : String, Rel (uniqueName base) (uniqueName base)
  inFlow : ∀ {α : Type} (flow : Flow) {first second : Lower α}, Rel first second →
    Rel (inFlow flow first) (inFlow flow second)
  withScope : ∀ {first second : Lower Unit}, Rel first second →
    Rel (withScope first) (withScope second)
  withSlotScope : ∀ {first second : Lower Unit}, Rel first second →
    Rel (withSlotScope first) (withSlotScope second)

namespace Congruence

variable {R : Congruence env domain}

/-- Both sides treat all variables and accesses in the same way. -/
structure Plain (R : Congruence env domain) : Prop where
  around : ∀ {s t : State}, R.Around s t → s.SameAround t
  declare : ∀ (name : String) (ty : Ty), R.Rel (declare name ty) (declare name ty)
  require : ∀ (name : String) (ty : Ty) (tree : Tree),
    R.Rel (require name ty tree) (require name ty tree)
  reserve : ∀ name : String, R.Rel (reserve name) (reserve name)
  bridged : ∀ access : Tree, R.Rel (bridged access) (bridged access)

/-- Both sides also treat all cleanups in the same way. -/
structure Exact (R : Congruence env domain) : Prop extends R.Plain where
  inCleanup : ∀ {α : Type} (body : Tree) {first second : Lower α}, R.Rel first second →
    R.Rel (Lower.inCleanup body first) (Lower.inCleanup body second)
  setAside : ∀ (index : Nat) {action action' : List Cleanup → Lower Unit},
    (∀ taken, R.Rel (action taken) (action' taken)) →
      R.Rel (Lower.setAside index action) (Lower.setAside index action')

/-- How the last steps of a handler compare, after which a value may be left. -/
structure Closing (R : Congruence env domain) where
  Ends : Lower Unit → Lower Unit → Prop
  throw : ∀ {fault fault' : Fault}, R.Faults fault fault' →
    Ends (MonadExcept.throw fault) (MonadExcept.throw fault')
  bind : ∀ {α : Type} {first second : Lower α} {next next' : α → Lower Unit},
    R.Rel first second →
    (∀ value, Yields env domain first value → Ends (next value) (next' value)) →
      Ends (first >>= next) (second >>= next')
  withSlotScope : ∀ {first second : Lower Unit}, Ends first second →
    Ends (Lower.withSlotScope first) (Lower.withSlotScope second)

/-- Nothing special happens to the value. -/
def closing (R : Congruence env domain) : R.Closing where
  Ends := R.Rel
  throw := R.throw
  bind := R.bind
  withSlotScope := R.withSlotScope

theorem Rel.bind {first second : Lower α} {next next' : α → Lower β} (h : R.Rel first second)
    (hnext : ∀ value, R.Rel (next value) (next' value)) :
    R.Rel (first >>= next) (second >>= next') :=
  R.bind h fun value _ => hnext value

theorem Rel.ends {E : R.Closing} {first second : Lower α} {next next' : α → Lower Unit}
    (h : R.Rel first second) (hnext : ∀ value, E.Ends (next value) (next' value)) :
    E.Ends (first >>= next) (second >>= next') :=
  E.bind h fun value _ => hnext value

/-- The steps return related values, with which both sides can go on. -/
def Closing.Via (E : R.Closing) (V : α → β → Prop) (first : Lower α) (second : Lower β) : Prop :=
  ∀ {next : α → Lower Unit} {next' : β → Lower Unit},
    (∀ value value', V value value' → E.Ends (next value) (next' value')) →
      E.Ends (first >>= next) (second >>= next')

theorem Rel.via {E : R.Closing} {first second : Lower α} {V : α → α → Prop}
    (h : R.Rel first second) (hvalue : ∀ value, Yields env domain first value → V value value) :
    E.Via V first second :=
  fun hnext => E.bind h fun value hyields => hnext value value (hvalue value hyields)

theorem Closing.via_orFail {E : R.Closing} {V : α → β → Prop} {outcome : Except Fault α}
    {outcome' : Except Fault β} (h : Outcomes R.Faults V outcome outcome') :
    E.Via (fun value value' => V value value' ∧ outcome = .ok value) (Lower.orFail outcome)
      (Lower.orFail outcome') := by
  intro next next' hnext
  cases h with
  | ok hvalue => exact hnext _ _ ⟨hvalue, rfl⟩
  | error hfault => exact E.throw hfault

theorem orFail (R : Congruence env domain) {outcome : Except Fault α} (h : Ordinary outcome) :
    R.Rel (Lower.orFail outcome) (Lower.orFail outcome) := by
  cases outcome with
  | error fault => exact R.throw (R.faults fault (h fault rfl))
  | ok value => exact R.pure value

theorem outcomes_refl (R : Congruence env domain) {V : α → α → Prop} {outcome : Except Fault α}
    (h : Ordinary outcome) (hvalue : ∀ value, outcome = .ok value → V value value) :
    Outcomes R.Faults V outcome outcome :=
  .refl (fun fault hfault => R.faults fault (h fault hfault)) hvalue

theorem op (R : Congruence env domain) {opcode : Opcode} (h : opcode.Bare) :
    R.Rel (Lower.op opcode) (Lower.op opcode) :=
  R.emit (.op opcode) h

theorem mark (R : Congruence env domain) (label : Label) :
    R.Rel (Lower.mark label) (Lower.mark label) :=
  R.emit (.bind label) trivial

theorem jump (R : Congruence env domain) (label : Label) :
    R.Rel (Lower.jump label) (Lower.jump label) :=
  R.emit (.jump .jump label) rfl

theorem currentType (R : Congruence env domain) :
    R.Rel Lower.currentType Lower.currentType := by
  refine R.get (fun h => by rw [h.alongside.owner]) fun s t _ hst => ?_
  rw [(R.alongside hst).owner]
  exact R.pure _

theorem resolve (R : Congruence env domain) (ty : Ty) :
    R.Rel (Lower.resolve ty) (Lower.resolve ty) :=
  R.nest.bind fun nest => R.currentType.bind fun _ => R.orFail (nest.ordinary_resolve _ ty)

theorem resolveAll (R : Congruence env domain) (types : List Ty) :
    R.Rel (Lower.resolveAll types) (Lower.resolveAll types) :=
  R.nest.bind fun nest => R.currentType.bind fun _ => R.orFail (nest.ordinary_resolveAll _ types)

theorem resolveSignature (R : Congruence env domain) (signature : Signature) :
    R.Rel (Lower.resolveSignature signature) (Lower.resolveSignature signature) :=
  R.nest.bind fun nest => R.currentType.bind fun _ =>
    R.orFail (nest.ordinary_resolveSignature _ signature)

theorem forM₂ (R : Congruence env domain) {items : List β} {items' : List γ}
    {action : β → Lower Unit} {action' : γ → Lower Unit}
    (h : List.Forall₂ (fun item item' => R.Rel (action item) (action' item')) items items') :
    R.Rel (items.forM action) (items'.forM action') := by
  induction h with
  | nil => exact R.pure ()
  | cons hitem _ ih => exact Rel.bind hitem fun _ => ih

theorem forM (R : Congruence env domain) {items : List β} {action action' : β → Lower Unit}
    (h : ∀ item ∈ items, R.Rel (action item) (action' item)) :
    R.Rel (items.forM action) (items.forM action') :=
  R.forM₂ (List.forall₂_same.mpr h)

theorem mapM₂ (R : Congruence env domain) {items : List β} {items' : List γ}
    {action : β → Lower α} {action' : γ → Lower α}
    (h : List.Forall₂ (fun item item' => R.Rel (action item) (action' item')) items items') :
    R.Rel (items.mapM action) (items'.mapM action') := by
  induction h with
  | nil =>
    rw [List.mapM_nil, List.mapM_nil]
    exact R.pure []
  | cons hitem _ ih =>
    rw [List.mapM_cons, List.mapM_cons]
    exact Rel.bind hitem fun _ => ih.bind fun _ => R.pure _

end Congruence

end Lower

namespace Lowering

open Lower

/-- The body of a loop and what is done after each round are inside the loop. -/
theorem forLoop_eq (recur : Recur) (label : Option String) (init : List Tree)
    (condition : Option Tree) (update : List Tree) (body : Tree) :
    forLoop recur label init condition update body = withScope (do
      recur.statements init
      let labels ← newLoopLabels
      jump labels.condition
      inFlow (labels.flow label labels.update) do
        mark labels.body
        recur.inScope body
        mark labels.update
        recur.statements update
      mark labels.condition
      match condition with
      | some condition => jumpIf recur condition true labels.body
      | none => jump labels.body
      mark labels.exit) := by
  cases condition <;> simp only [forLoop, inFlow, bind_assoc, pure_bind]

theorem whileLoop_eq (recur : Recur) (label : Option String) (condition body : Tree)
    (bodyFirst : Bool) :
    whileLoop recur label condition body bodyFirst = (do
      let labels ← newLoopLabels
      unless bodyFirst do
        jump labels.condition
      inFlow (labels.flow label labels.condition) do
        mark labels.body
        recur.inScope body
      mark labels.condition
      jumpIf recur condition true labels.body
      mark labels.exit) := by
  simp only [whileLoop, inFlow, bind_assoc, pure_bind]

theorem intSwitch_eq (recur : Recur) (label : Option String) (subject : Tree) (arms : List Arm) :
    intSwitch recur label subject arms = (do
      let key ← intSubject subject
      let (keyed, defaultBody) ←
        orFail (Switch.collectArms (.switch label .int subject arms) arms)
      let encoding := Switch.Encoding.choose (keyed.map Prod.fst)
      let dispatched ← orFail (dispatchedArms encoding (← tableLimit) keyed)
      let entry ← newLabel
      let bodyEntry ← newLabel
      let otherwise ← newLabel
      let exit ← newLabel
      mark entry
      inFlow ⟨.switch, label, entry, bodyEntry, otherwise, exit⟩ do
        recur.value key
        let targets ← dispatched.mapM (armTarget otherwise)
        emitDispatch encoding otherwise targets
        mark bodyEntry
        (dispatched.zip targets).forM fun (arm, target) =>
          if target.2 = otherwise then pure ()
          else do
            mark target.2
            recur.inScope arm.2
        mark otherwise
        if let some body := defaultBody then
          recur.inScope body
      mark exit) := by
  refine bind_congr fun key => bind_congr fun collected => ?_
  obtain ⟨keyed, defaultBody⟩ := collected
  cases defaultBody <;> simp only [tableLimit, inFlow, bind_assoc, pure_bind]

/-- What follows the region of a cleanup. -/
def leaveRegion (recur : Recur) (start stop exit : Label)
    (region : List (Label × Label) × Option Cleanup) : Lower Unit := do
  if let some pending := region.2 then
    catchAll recur ((start, stop) :: region.1) pending.body
  mark exit

/-- The body of a region and its catch clauses. -/
def region (recur : Recur) (body : Tree) (catches : List Catch) (cleanupIndex : Nat)
    (start stop exit : Label) : Lower (List (Label × Label)) := do
  mark start
  recur.inScope body
  mark stop
  inlineCleanups recur cleanupIndex
  jump exit
  catches.mapM (catchClause recur start stop exit cleanupIndex)

theorem guarded_eq (recur : Recur) (body : Tree) (catches : List Catch) (cleanup : Tree) :
    guarded recur body catches (some cleanup) = (do
      let start ← newLabel
      let stop ← newLabel
      let exit ← newLabel
      let cleanupIndex := (← get).cleanups.length
      let region ← inCleanup cleanup (region recur body catches cleanupIndex start stop exit)
      leaveRegion recur start stop exit region) := by
  simp only [guarded, inCleanup, region, bind_assoc, pure_bind, Option.isSome_some, if_true]
  rfl

theorem guarded_none_eq (recur : Recur) (body : Tree) (catches : List Catch) :
    guarded recur body catches none = (do
      let start ← newLabel
      let stop ← newLabel
      let exit ← newLabel
      let cleanupIndex := (← get).cleanups.length
      let _ ← region recur body catches cleanupIndex start stop exit
      mark exit) := by
  simp only [guarded, region, bind_assoc, Option.isSome_none]
  rfl

/-- Return a value of type `ty`. -/
def returnAs (recur : Recur) (value : Tree) (ty : Ty) : Lower Unit := do
  recur.value value
  if (← get).cleanups.isEmpty then
    emit (.ret ty)
  else
    withSlotScope do
      let slot ← keepResult ty
      emit (.setLocal slot)
      inlineCleanups recur 0
      emit (.getLocal slot)
      emit (.ret ty)

theorem returnValue_eq (recur : Recur) (value : Tree) :
    returnValue recur value = (do
      let declared := (← get).result
      returnAs recur value (← if declared.isVoid then resolve value.valueType else pure declared)) := by
  simp only [returnValue, returnAs, keepResult, bind_assoc]

end Lowering

end StackLowering
