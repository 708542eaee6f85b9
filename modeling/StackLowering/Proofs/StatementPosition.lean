import StackLowering.Proofs.BridgeRegistry
import StackLowering.Proofs.Restoration
/-!
Values and statements. A tree is lowered as a statement to what it is lowered to
as a value, followed by one instruction that discards the value; a block is
lowered so part by part. How deep a value is nested makes no difference.
-/

namespace StackLowering

/-- What discards a value of so many cells. -/
def Call.discards : Nat → List Call
  | 0 => []
  | 1 => [.op .pop]
  | _ => [.op .pop2]

/-- Every alias that stands for a type stands for an object type. -/
def Nest.AliasesObjects (nest : Nest) (current : Ty) : Prop :=
  ∀ role ty, nest.resolveRole current role = .ok ty → ∃ name, ty = .object name

/-- The type that `ty` stands for; an alias that stands for nothing is kept. -/
def Nest.resolved (nest : Nest) (current ty : Ty) : Ty :=
  (nest.resolve current ty).toOption.getD ty

/-- The type of the value that a tree leaves. A field that is read through a
bridge has the type that the bridge returns. -/
def State.valueType (env : Env) (tree : Tree) (s : State) : Ty :=
  let resolved := env.nest.resolved s.currentType
  match tree with
  | .readField owner name ty receiver =>
    match (s.bridged env (.readField (resolved owner) name (resolved ty) receiver)).1 with
    | some (.invoke _ _ accessor _ _) => accessor.result
    | _ => resolved ty
  | tree => resolved tree.valueType

variable {ty owner : Ty} {name : String} {receiver : Option Tree} {recur : Recur}
  {width depth : Nat}

theorem Nest.width_resolve {nest : Nest} {current resolved : Ty}
    (haliases : nest.AliasesObjects current) (h : nest.resolve current ty = .ok resolved) :
    resolved.width = ty.width := by
  cases ty with
  | prim p | object name =>
    cases h
    rfl
  | array element =>
    rw [Nest.resolve] at h
    cases helement : nest.resolve current element with
    | error fault =>
      rw [helement] at h
      cases h
    | ok inner =>
      rw [helement] at h
      cases h
      rfl
  | symbolic role =>
    obtain ⟨name, rfl⟩ := haliases role resolved h
    rfl

theorem Nest.width_resolved {nest : Nest} {current : Ty} (haliases : nest.AliasesObjects current)
    (ty : Ty) : (nest.resolved current ty).width = ty.width := by
  rw [Nest.resolved]
  cases hresolve : nest.resolve current ty with
  | error fault => rfl
  | ok resolved => exact width_resolve haliases hresolve

/-- How many cells a tree leaves, where its shape shows it. -/
inductive Tree.Leaves : Tree → Nat → Prop
  | value {tree : Tree} (hdirect : tree.kind ≠ .block ∧ tree.kind ≠ .readField) :
      Leaves tree tree.valueType.width
  | block {trees : List Tree} (htrees : ∀ tree ∈ trees, Leaves tree 0) : Leaves (.block trees) 0

theorem Tree.Leaves.direct {tree : Tree}
    (h : decide (tree.kind ≠ .block ∧ tree.kind ≠ .readField) = true) :
    Leaves tree tree.valueType.width :=
  .value (of_decide_eq_true h)

theorem Tree.Leaves.statements {first second : Tree} (h : Leaves first 0 ∧ Leaves second 0) :
    Leaves (.block [first, second]) 0 :=
  .block (List.forall_mem_cons.mpr ⟨h.1, List.forall_mem_singleton.mpr h.2⟩)

theorem Tree.leaves_hashed {kind : SwitchKind} {label : Option String} {subject tree : Tree}
    {arms : List Arm} (h : Switch.hashed kind label subject arms ty name = .ok tree) :
    tree.Leaves 0 := by
  obtain ⟨buckets, _, htree⟩ := bind_eq_ok.mp h
  cases htree
  exact .statements ⟨.direct rfl, .direct rfl⟩

namespace Bridges

variable {nest : Nest} {bridges bridges' : Bridges} {requester : Ty} {access use : Tree}

/-- Each bridge is declared in the way that its member needs. -/
def Fitting (bridges : Bridges) : Prop :=
  ∀ bridge ∈ bridges.entries, BridgeDecl.Fits bridge.member bridge.decl

theorem Sound.fitting (h : bridges.Sound nest) : bridges.Fitting := by
  obtain ⟨_, hserves⟩ := h.serves
  exact hserves.fits

theorem Fitting.addBridge (h : bridges.Fitting) {member : Member} {decl : BridgeDecl}
    (hfits : BridgeDecl.Fits member decl) (requester : Ty) :
    (bridges.addBridge member requester decl).Fitting := by
  intro bridge hmem
  rcases List.mem_append.mp hmem with hold | hnew
  · exact h bridge hold
  · rw [List.mem_singleton.mp hnew]
    exact hfits

theorem Fitting.access? (h : bridges.Fitting)
    (haccess : bridges.access? nest requester access = some (use, bridges')) :
    bridges'.Fitting := by
  obtain ⟨member, decl, _, _, hanswers⟩ := answers_of_access? haccess
  cases hanswers with
  | shared hfind =>
    intro bridge hmem
    obtain ⟨before, hbefore, rfl⟩ := List.mem_map.mp hmem
    split_ifs
    · rw [Bridge.addRequester_member, Bridge.addRequester_decl]
      exact h before hbefore
    · exact h before hbefore
  | newMethod hfind hfits hname => exact h.addBridge hfits requester
  | @newConstructor owner _ _ _ hfind hdecl =>
    have hmarked : (bridges.newMarker nest owner).2.Fitting := h
    rw [hdecl]
    exact hmarked.addBridge (.constructor ..) requester

theorem Fitting.through (h : bridges.Fitting)
    (haccess : bridges.access? nest requester access = some (use, bridges')) :
    ∃ member decl, access.member? = some member ∧ BridgeDecl.Fits member decl ∧
      nest.through? access decl = some use := by
  obtain ⟨member, decl, hmember, hthrough, hanswers⟩ := answers_of_access? haccess
  obtain ⟨bridge, hmem, hbridge⟩ := List.mem_map.mp hanswers.mem
  obtain ⟨rfl, rfl⟩ := Prod.mk.inj hbridge
  exact ⟨_, _, hmember, h.access? haccess bridge hmem, hthrough⟩

theorem Fitting.use_readField (h : bridges.Fitting) (haccess : bridges.access? nest requester
      (.readField owner name ty receiver) = some (use, bridges')) :
    ∃ accessor args, use = .invoke .static owner accessor none args := by
  obtain ⟨member, decl, hmember, hfits, hthrough⟩ := h.through haccess
  cases hmember
  cases hfits
  obtain ⟨field, _, huse⟩ := Option.bind_eq_some_iff.mp hthrough
  cases huse
  exact ⟨_, _, rfl⟩

theorem Fitting.leaves_invoke {kind : InvokeKind} {method : Signature} {args : List Tree}
    (h : bridges.Fitting) (haccess : bridges.access? nest requester
      (.invoke kind owner method receiver args) = some (use, bridges')) :
    use.Leaves method.result.width := by
  obtain ⟨member, decl, hmember, hfits, hthrough⟩ := h.through haccess
  cases hmember
  cases hfits
  obtain ⟨found, _, huse⟩ := Option.bind_eq_some_iff.mp hthrough
  cases huse
  exact .direct rfl

theorem Fitting.leaves_create {params : List Ty} {args : List Tree} (h : bridges.Fitting)
    (haccess : bridges.access? nest requester
      (.create ty params args) = some (use, bridges')) : use.Leaves ty.width := by
  obtain ⟨member, decl, hmember, hfits, hthrough⟩ := h.through haccess
  cases hmember
  cases hfits
  cases hthrough
  exact .direct rfl

end Bridges

section Fitted

variable {env : Env}

/-- Bridges fit their members throughout. -/
def State.fitted (env : Env) : State.Kept env where
  Rel := fun s s' => s.bridges.Fitting → s'.bridges.Fitting
  refl := fun _ => id
  trans := fun h h' => h' ∘ h
  emits := fun _ _ _ => id
  declare := fun _ _ _ => id
  reserve := fun _ _ => id
  uniqueName := fun _ _ => id
  bridged := fun access s hfitting => by
    rcases hbridged : s.bridged env access with ⟨_ | use, m⟩
    · rw [State.eq_of_bridged_eq_none hbridged]
      exact hfitting
    · obtain ⟨bridges, haccess, rfl⟩ := State.access?_of_bridged hbridged
      exact hfitting.access? haccess
  around := fun _ _ _ => id
  scope := id
  slotScope := id
  value := id
  statement := id

namespace Lower

theorem fitted_localRoutine (recur : Recur)
    (h : ∀ tree, Keeps (State.fitted env) (recur tree)) (method : Method) :
    Keeps (State.fitted env) (Lowering.localRoutine recur method) := by
  intro s hfitting
  cases hdecl : RoutineDecl.ofMethod? s.currentType method with
  | none =>
    rw [Lowering.localRoutine_apply_bodiless hdecl]
    exact hfitting
  | some decl =>
    have hbody : Keeps (State.fitted env) (Lowering.routineBody recur decl) :=
      (related_keeping h).routineBody exact_keeping.toPlain decl rfl
    have hshared : (Lowering.routine recur decl env s.shared).2.bridges.Fitting :=
      hbody (.initial env.nest s.shared decl.info) hfitting
    rw [Lowering.localRoutine_apply hdecl]
    rcases hroutine : Lowering.routine recur decl env s.shared with ⟨_ | _, shared⟩
    all_goals
      rw [hroutine] at hshared
      exact hshared

theorem fitted_run (depth : Nat) (tree : Tree) :
    Keeps (State.fitted env) (Handlers.standard.run depth tree) :=
  keeps_run fitted_localRoutine depth tree

end Lower

end Fitted

namespace State

variable {env : Env} {s : State}

theorem currentType_withDepth (depth : Nat) : (s.withDepth depth).currentType = s.currentType := rfl

theorem bridged_withDepth (access : Tree) (depth : Nat) : (s.withDepth depth).bridged env access =
    ((s.bridged env access).1, (s.bridged env access).2.withDepth depth) := by
  unfold State.bridged
  split_ifs
  · have hsame : (s.withDepth depth).bridges.access? env.nest (s.withDepth depth).currentType
        access = s.bridges.access? env.nest s.currentType access := rfl
    rw [hsame]
    cases s.bridges.access? env.nest s.currentType access <;> rfl
  · rfl

theorem valueType_withDepth (tree : Tree) (depth : Nat) :
    (s.withDepth depth).valueType env tree = s.valueType env tree := by
  cases tree with
  | readField owner name ty receiver =>
    rw [valueType, valueType, currentType_withDepth, bridged_withDepth]
  | _ => rfl

theorem valueType_readField {type resolved : Ty}
    (howner : env.nest.resolve s.currentType owner = .ok type)
    (hty : env.nest.resolve s.currentType ty = .ok resolved) :
    s.valueType env (.readField owner name ty receiver) =
      match (s.bridged env (.readField type name resolved receiver)).1 with
      | some (.invoke _ _ accessor _ _) => accessor.result
      | _ => resolved := by
  simp only [valueType, Nest.resolved, howner, hty, Except.toOption, Option.getD_some]

end State

/-- The code is in the place where `origin` is, and the bridges fit their members. -/
structure State.Within (s origin : State) : Prop where
  data : s.data = origin.data
  fitting : s.bridges.Fitting

namespace Lower

variable {α β : Type} {env : Env} {origin : State} {depths : Nat → Prop}

/-- Among the given depths of nesting, the step is the same at each. -/
def Steady (env : Env) (origin : State) (depths : Nat → Prop) (action : Lower α) : Prop :=
  ∀ s : State, s.Within origin → depths s.expressionDepth →
    (action env s).2.Within origin ∧ ∀ depth, depths depth →
      action env (s.withDepth depth) = ((action env s).1, (action env s).2.withDepth depth)

variable {s : State}

namespace Steady

theorem depth_eq {action : Lower α} (h : Steady env origin depths action) (hs : s.Within origin)
    (hdepth : depths s.expressionDepth) :
    (action env s).2.expressionDepth = s.expressionDepth := by
  have hsame : action env s =
      ((action env s).1, (action env s).2.withDepth s.expressionDepth) := (h s hs hdepth).2 _ hdepth
  exact congrArg (fun result => result.2.expressionDepth) hsame

theorem bind {action : Lower α} {next : α → Lower β} (h : Steady env origin depths action)
    (hnext : ∀ value, Yields env (fun s => s.Within origin ∧ depths s.expressionDepth)
      action value → Steady env origin depths (next value)) :
    Steady env origin depths (action >>= next) := by
  intro s hs hdepth
  have hstays := h.depth_eq hs hdepth
  obtain ⟨hwithin, hsame⟩ := h s hs hdepth
  rcases hrun : action env s with ⟨fault | value, m⟩
  · rw [hrun] at hwithin hsame
    refine ⟨?_, fun depth hother => ?_⟩
    · rw [bind_apply, hrun]
      exact hwithin
    · rw [bind_apply, bind_apply, hsame depth hother, hrun]
  · rw [hrun] at hwithin hsame hstays
    have hvalue := hnext value ⟨s, m, ⟨hs, hdepth⟩, hrun⟩
    obtain ⟨hwithin', hsame'⟩ := hvalue m hwithin (hstays ▸ hdepth)
    refine ⟨?_, fun depth hother => ?_⟩
    · rw [bind_apply, hrun]
      exact hwithin'
    · rw [bind_apply, bind_apply, hsame depth hother, hrun]
      exact hsame' depth hother

theorem pure (value : α) : Steady env origin depths (Pure.pure value : Lower α) :=
  fun _ hs _ => ⟨hs, fun _ _ => rfl⟩

theorem throw (fault : Fault) : Steady env origin depths (MonadExcept.throw fault : Lower α) :=
  fun _ hs _ => ⟨hs, fun _ _ => rfl⟩

theorem orFail (outcome : Except Fault α) : Steady env origin depths (Lower.orFail outcome) := by
  cases outcome with
  | error fault => exact throw fault
  | ok value => exact pure value

theorem modifyGet {f : State → α × State}
    (hkeeps : ∀ s : State, (f s).2.data = s.data ∧ (f s).2.bridges = s.bridges)
    (hsame : ∀ (s : State) (depth : Nat),
      f (s.withDepth depth) = ((f s).1, (f s).2.withDepth depth)) :
    Steady env origin depths (MonadStateOf.modifyGet f) := by
  intro s hs _
  obtain ⟨hdata, hbridges⟩ := hkeeps s
  refine ⟨⟨hdata.trans hs.data, ?_⟩, fun depth _ => ?_⟩
  · change (f s).2.bridges.Fitting
    rw [hbridges]
    exact hs.fitting
  · change (Except.ok (f (s.withDepth depth)).1, (f (s.withDepth depth)).2) = _
    rw [hsame]
    rfl

theorem modify {f : State → State}
    (hkeeps : ∀ s : State, (f s).data = s.data ∧ (f s).bridges = s.bridges)
    (hsame : ∀ (s : State) (depth : Nat), f (s.withDepth depth) = (f s).withDepth depth) :
    Steady env origin depths (modify f) :=
  modifyGet hkeeps fun s depth => congrArg (Prod.mk ()) (hsame s depth)

theorem bracket {enter exit : State → State} {action : Lower α}
    (h : Steady env origin depths action)
    (henter : ∀ s : State, (enter s).data = s.data ∧ (enter s).bridges = s.bridges ∧
      (enter s).expressionDepth = s.expressionDepth ∧
        ∀ depth, enter (s.withDepth depth) = (enter s).withDepth depth)
    (hexit : ∀ s : State, (exit s).data = s.data ∧ (exit s).bridges = s.bridges ∧
      ∀ depth, exit (s.withDepth depth) = (exit s).withDepth depth) :
    Steady env origin depths (Lower.bracket enter exit action) := by
  intro s hs hdepth
  obtain ⟨hdata, hbridges, hentered, hsame⟩ := henter s
  obtain ⟨hwithin, hinner⟩ := h (enter s) ⟨hdata.trans hs.data, hbridges ▸ hs.fitting⟩
    (hentered ▸ hdepth)
  obtain ⟨hdata', hbridges', hsame'⟩ := hexit (action env (enter s)).2
  refine ⟨⟨hdata'.trans hwithin.data, ?_⟩, fun depth hother => ?_⟩
  · change (exit (action env (enter s)).2).bridges.Fitting
    rw [hbridges']
    exact hwithin.fitting
  · change ((action env (enter (s.withDepth depth))).1,
      exit (action env (enter (s.withDepth depth))).2) =
      ((action env (enter s)).1, (exit (action env (enter s)).2).withDepth depth)
    rw [hsame, hinner depth hother, hsame']

theorem bridged (access : Tree) : Steady env origin depths (Lower.bridged access) := by
  intro s hs _
  refine ⟨⟨?_, State.fitted env |>.bridged access s hs.fitting⟩, fun depth _ => ?_⟩
  · exact ((State.restored env).bridged access s).data.trans hs.data
  · change (Except.ok ((s.withDepth depth).bridged env access).1,
      ((s.withDepth depth).bridged env access).2) = _
    rw [State.bridged_withDepth]
    rfl

theorem value {action : Lower Unit} (h : Steady env origin (0 < ·) action) :
    Steady env origin depths (inExpression action) := by
  intro s hs _
  obtain ⟨hwithin, hsame⟩ := h s.enterExpression ⟨hs.data, hs.fitting⟩ (Nat.succ_pos _)
  refine ⟨⟨hwithin.data, hwithin.fitting⟩, fun depth _ => ?_⟩
  have hdeeper : action env (s.withDepth depth).enterExpression = _ :=
    hsame (depth + 1) (Nat.succ_pos depth)
  change ((action env (s.withDepth depth).enterExpression).1,
    (action env (s.withDepth depth).enterExpression).2.exitExpression) = _
  rw [hdeeper]
  rfl

theorem statement {action : Lower Unit}
    (h : ∀ s : State, s.Within origin → (action env s).2.Within origin) :
    Steady env origin depths (inStatement action) := by
  intro s hs _
  obtain ⟨hdata, hfitting⟩ := h (s.withDepth 0) ⟨hs.data, hs.fitting⟩
  exact ⟨⟨hdata, hfitting⟩, fun _ _ => rfl⟩

end Steady

/-- Being steady is a property of lowerings. -/
def steady (env : Env) (origin : State) (depths : Nat → Prop) :
    Congruence env fun s => s.Within origin ∧ depths s.expressionDepth where
  Rel := fun first _ => Steady env origin depths first
  pure := .pure
  throw := fun _ => .throw _
  bind := .bind
  get := fun {_ next _} hsame hnext s hs hdepth => by
    obtain ⟨hwithin, hother⟩ := hnext s s ⟨hs, hdepth⟩ (.refl s) s hs hdepth
    refine ⟨hwithin, fun depth hdepth => ?_⟩
    have hview : next (s.withDepth depth) = next s :=
      hsame (s := s.withDepth depth) (t := s) ⟨rfl, rfl, rfl⟩
    change next (s.withDepth depth) env (s.withDepth depth) = _
    rw [hview]
    exact hother depth hdepth
  nest := fun _ hs _ => ⟨hs, fun _ _ => rfl⟩
  tableLimit := fun _ hs _ => ⟨hs, fun _ _ => rfl⟩
  emit := fun _ _ => .modify (fun _ => ⟨rfl, rfl⟩) fun _ _ => rfl
  newLabel := .modifyGet (fun _ => ⟨rfl, rfl⟩) fun _ _ => rfl
  uniqueName := fun _ => .modifyGet (fun _ => ⟨rfl, rfl⟩) fun _ _ => rfl
  inFlow := fun _ _ _ h => Steady.bind (.modify (fun _ => ⟨rfl, rfl⟩) fun _ _ => rfl) fun _ _ =>
    h.bind fun _ _ => Steady.bind (.modify (fun _ => ⟨rfl, rfl⟩) fun _ _ => rfl) fun _ _ => .pure _
  withScope := fun h => h.bracket (fun _ => ⟨rfl, rfl, rfl, fun _ => rfl⟩)
    fun _ => ⟨rfl, rfl, fun _ => rfl⟩
  withSlotScope := fun h => h.bracket (fun _ => ⟨rfl, rfl, rfl, fun _ => rfl⟩)
    fun _ => ⟨rfl, rfl, fun _ => rfl⟩

theorem Steady.options : Steady env origin depths Lower.options :=
  fun _ hs _ => ⟨hs, fun _ _ => rfl⟩

theorem exact_steady : (steady env origin depths).Exact where
  around := id
  declare := fun _ _ =>
    Steady.bind (.modifyGet (fun _ => ⟨rfl, rfl⟩) fun _ _ => rfl) fun _ _ => .orFail _
  require := fun name ty tree s =>
    Steady.orFail ((s.slots.require name ty).mapError (·.withTree tree)) s
  reserve := fun _ => Steady.modify (fun _ => ⟨rfl, rfl⟩) fun _ _ => rfl
  bridged := Steady.bridged
  inCleanup := fun _ _ _ h => Steady.bind (.modify (fun _ => ⟨rfl, rfl⟩) fun _ _ => rfl)
    fun _ _ => Steady.bind h fun _ _ =>
      Steady.bind (.modifyGet (fun _ => ⟨rfl, rfl⟩) fun _ _ => rfl) fun _ _ => .pure _
  setAside := fun index {action _} h s => by
    have haside : Steady env origin depths (Lower.bracket
        (fun state => { state with cleanups := s.cleanups.take index })
        (State.restoreCleanups (s.cleanups.drop index)) (action (s.cleanups.drop index))) :=
      Steady.bracket (h (s.cleanups.drop index)) (fun _ => ⟨rfl, rfl, rfl, fun _ => rfl⟩)
        fun _ => ⟨rfl, rfl, fun _ => rfl⟩
    exact haside s

theorem discard_of_used (h : 0 < s.expressionDepth) :
    Lower.discard ty env s = (.ok (), s) := by
  change (Except.ok (), s.discard ty) = _
  rw [State.discard, State.isValueUsed, decide_eq_true h, if_pos rfl]

theorem Steady.discard (ty : Ty) : Steady env origin (0 < ·) (Lower.discard ty) := by
  intro s hs hdepth
  rw [discard_of_used hdepth]
  exact ⟨hs, fun depth hother => discard_of_used hother⟩

theorem Steady.localRoutine (h : ∀ tree, Keeps (State.fitted env) (recur tree)) (method : Method) :
    Steady env origin depths (Lowering.localRoutine recur method) := by
  intro s hs _
  refine ⟨⟨?_, fitted_localRoutine recur h method s hs.fitting⟩, fun depth _ => ?_⟩
  · exact (restores_localRoutine recur method s).data.trans hs.data
  · cases hdecl : RoutineDecl.ofMethod? s.currentType method with
    | none =>
      have hother : RoutineDecl.ofMethod? (s.withDepth depth).currentType method = none := hdecl
      rw [Lowering.localRoutine_apply_bodiless hdecl, Lowering.localRoutine_apply_bodiless hother]
    | some decl =>
      have hother : RoutineDecl.ofMethod? (s.withDepth depth).currentType method = some decl :=
        hdecl
      have hshared : (s.withDepth depth).shared = s.shared := rfl
      rw [Lowering.localRoutine_apply hdecl, Lowering.localRoutine_apply hother, hshared]
      rcases Lowering.routine recur decl env s.shared with ⟨_ | _, shared⟩ <;> rfl

theorem within_run (hs : s.Within origin) (depth : Nat) (tree : Tree) :
    (Handlers.standard.run depth tree env s).2.Within origin where
  data := (restores_run depth tree s).data.trans hs.data
  fitting := fitted_run depth tree s hs.fitting

/-- Values are lowered in the same way however deep they are nested. -/
theorem steady_run (depth : Nat) (tree : Tree) :
    Steady env origin (0 < ·) (Handlers.standard.run depth tree) := by
  induction depth generalizing tree with
  | zero => exact .throw _
  | succ depth ih =>
    have hrelated : Recur.Related (steady env origin (0 < ·)) Eq (Handlers.standard.run depth)
        (Handlers.standard.run depth) := .of_exact exact_steady (fun tree => (ih tree).value)
      fun tree => .statement fun s hs => within_run hs depth tree
    rw [Handlers.run_succ]
    exact hrelated.tree exact_steady (fun _ _ _ _ => Steady.options) Steady.discard ih
      fun method _ => Steady.localRoutine (fitted_run depth) method

theorem related_steady (depth : Nat) :
    Recur.Related (steady env origin depths) Eq (Handlers.standard.run depth)
      (Handlers.standard.run depth) :=
  .of_exact exact_steady (fun tree => (steady_run depth tree).value)
    fun tree => .statement fun _ hs => within_run hs depth tree

/-- The outcome of a lowering whose value is then discarded in a statement. -/
def dropping (width : Nat) : Except Fault Unit × State → Except Fault Unit × State
  | (.ok (), state) => (.ok (), (state.withDepth 0).emitsAll (Call.discards width))
  | (.error fault, state) => (.error fault, state.withDepth 0)

/-- As a statement, the step does what it does as a value and then discards a
value of the given width. -/
def Drops (env : Env) (origin : State) (width : Nat) (action : Lower Unit) : Prop :=
  ∀ (s : State) (depth : Nat), s.Within origin → 0 < depth →
    action env (s.withDepth 0) = dropping width (action env (s.withDepth depth))

namespace Drops

theorem of_steady {action : Lower Unit} (h : Steady env origin (fun _ => True) action) :
    Drops env origin 0 action := by
  intro s depth hs _
  obtain ⟨_, hsame⟩ := h s hs trivial
  rw [hsame 0 trivial, hsame depth trivial]
  rcases action env s with ⟨_ | _, m⟩ <;> rfl

/-- A step that leaves no value is the same at every depth. -/
theorem steady {action : Lower Unit} (h : Drops env origin 0 action)
    (hused : Steady env origin (0 < ·) action) : Steady env origin (fun _ => True) action := by
  intro s hs _
  have hs' : (s.withDepth 1).Within origin := ⟨hs.data, hs.fitting⟩
  obtain ⟨hwithin, hsame⟩ := hused (s.withDepth 1) hs' Nat.one_pos
  have heach (depth : Nat) : action env (s.withDepth depth) =
      ((action env (s.withDepth 1)).1, (action env (s.withDepth 1)).2.withDepth depth) := by
    cases depth with
    | zero =>
      rw [h s 1 hs Nat.one_pos]
      rcases action env (s.withDepth 1) with ⟨_ | _, m⟩ <;> rfl
    | succ depth => exact hsame (depth + 1) (Nat.succ_pos depth)
  have hhere : action env s = _ := heach s.expressionDepth
  rw [hhere]
  exact ⟨⟨hwithin.data, hwithin.fitting⟩, fun depth _ => heach depth⟩

theorem bind {action : Lower α} {next : α → Lower Unit}
    (h : Steady env origin (fun _ => True) action)
    (hnext : ∀ value, Yields env (fun s => s.Within origin ∧ True) action value →
      Drops env origin width (next value)) : Drops env origin width (action >>= next) := by
  intro s depth hs hdepth
  obtain ⟨hwithin, hsame⟩ := h s hs trivial
  rw [bind_apply, bind_apply, hsame 0 trivial, hsame depth trivial]
  rcases hrun : action env s with ⟨fault | value, m⟩
  · rfl
  · rw [hrun] at hwithin
    exact hnext value ⟨s, m, ⟨hs, trivial⟩, hrun⟩ m depth hwithin hdepth

theorem withSlotScope {action : Lower Unit} (h : Drops env origin width action) :
    Drops env origin width (Lower.withSlotScope action) := by
  intro s depth hs hdepth
  have hinner := h s.enterSlotScope depth ⟨hs.data, hs.fitting⟩ hdepth
  have hscope (depth : Nat) : Lower.withSlotScope action env (s.withDepth depth) =
      ((action env (s.enterSlotScope.withDepth depth)).1,
        (action env (s.enterSlotScope.withDepth depth)).2.exitSlotScope) := rfl
  rw [hscope, hscope, hinner]
  rcases action env (s.enterSlotScope.withDepth depth) with ⟨_ | _, m⟩
  · rfl
  · rcases width with _ | _ | _ <;> rfl

theorem discard (h : ty.width = width) :
    Drops env origin width (Lower.discard ty) := by
  intro s depth _ hdepth
  subst h
  have hused : 0 < (s.withDepth depth).expressionDepth := hdepth
  have hpop (s : State) : s.onAssembler (.pop ty.width) = s.emitsAll (Call.discards ty.width) := by
    rcases ty.width with _ | _ | _ <;> rfl
  rw [discard_of_used hused, dropping, ← hpop]
  rfl

end Drops

def drops (env : Env) (origin : State) (width : Nat) :
    (Lower.steady env origin fun _ => True).Closing where
  Ends := fun first _ => Drops env origin width first
  throw := by
    rintro fault _ rfl _ _ _ _
    rfl
  bind := .bind
  withSlotScope := .withSlotScope

theorem resolve_apply (ty : Ty) (s : State) :
    resolve ty env s = (env.nest.resolve s.currentType ty, s) := by
  change orFail (env.nest.resolve s.currentType ty) env s = _
  cases env.nest.resolve s.currentType ty <;> rfl

theorem readField_apply (recur : Recur) (owner : Ty) (name : String) (ty : Ty)
    (receiver : Option Tree) (s : State) :
    Lowering.readField recur owner name ty receiver env s =
      match env.nest.resolve s.currentType owner with
      | .error fault => (.error fault, s)
      | .ok type => match env.nest.resolve s.currentType ty with
        | .error fault => (.error fault, s)
        | .ok resolved => Lowering.access recur (.readField type name resolved receiver) env s := by
  rw [Lowering.readField_eq, bind_apply, resolve_apply]
  cases env.nest.resolve s.currentType owner with
  | error fault => rfl
  | ok type =>
    dsimp only
    rw [bind_apply, resolve_apply]
    cases env.nest.resolve s.currentType ty <;> rfl

theorem access_apply (recur : Recur) (access : Tree) (s : State) :
    Lowering.access recur access env s =
      match s.bridged env access with
      | (some use, m) => recur use env m
      | (none, m) => Lowering.perform recur (directAccess access) env m := by
  have hbridged : bridged access env s =
    (.ok (s.bridged env access).1, (s.bridged env access).2) := rfl
  rw [Lowering.access, bind_apply, hbridged]
  rcases s.bridged env access with ⟨_ | use, m⟩ <;> rfl

/-- A field that is read through a bridge leaves what the bridge returns. -/
theorem dropping_readField (hs : s.Within origin) (hdepth : 0 < depth)
    (h : Recur.Related (steady env origin fun _ => True) Eq recur recur)
    (hplace : ∀ {tree : Tree} {width : Nat}, tree.Leaves width →
      Drops env origin width (recur tree)) :
    Lowering.readField recur owner name ty receiver env (s.withDepth 0) =
      dropping (s.valueType env (.readField owner name ty receiver)).width
        (Lowering.readField recur owner name ty receiver env (s.withDepth depth)) := by
  rw [readField_apply, readField_apply, State.currentType_withDepth, State.currentType_withDepth]
  cases howner : env.nest.resolve s.currentType owner with
  | error fault => rfl
  | ok type =>
    cases hty : env.nest.resolve s.currentType ty with
    | error fault => rfl
    | ok resolved =>
      dsimp only
      rw [access_apply, access_apply, State.bridged_withDepth, State.bridged_withDepth,
        State.valueType_readField howner hty]
      rcases hbridged : s.bridged env (.readField type name resolved receiver) with ⟨_ | use, m⟩
      · rw [State.eq_of_bridged_eq_none hbridged]
        have hdirect : (drops env origin resolved.width).Ends _ _ :=
          Lowering.ends_perform h (.readField type name resolved receiver) (Drops.discard rfl)
        exact hdirect s depth hs hdepth
      · obtain ⟨bridges, haccess, rfl⟩ := State.access?_of_bridged hbridged
        obtain ⟨accessor, args, rfl⟩ := hs.fitting.use_readField haccess
        let call := Tree.invoke .static type accessor none args
        have hcall : call.Leaves accessor.result.width := .direct rfl
        exact hplace hcall _ depth ⟨hs.data, hs.fitting.access? haccess⟩ hdepth

section Trees

variable (haliases : env.nest.AliasesObjects origin.currentType)

include haliases

theorem width_of_resolves {resolved : Ty} (hs : s.Within origin) (h : Resolves env s ty resolved) :
    resolved.width = ty.width := by
  rw [Resolves, State.currentType, hs.data] at h
  exact Nest.width_resolve haliases h

theorem width_of_yields {resolved : Ty}
    (h : Yields env (fun s => s.Within origin ∧ True) (resolve ty) resolved) :
    resolved.width = ty.width := by
  obtain ⟨s, _, ⟨hs, _⟩, hrun⟩ := h
  exact width_of_resolves haliases hs (runs_resolve.mp hrun).1

theorem width_of_operates {node : Tree} {operation : Operation} (hs : s.Within origin)
    (h : Operates env s node operation) (hnode : node.isOperation = true) :
    operation.result.width = node.valueType.width := by
  cases h with
  | access haccess => cases haccess <;> cases hnode
  | readLocal hty | enumConstant hty | arith hty | cast hty | arrayLoad hty =>
    exact width_of_resolves haliases hs hty
  | _ => rfl

theorem width_result_of_yields {method resolved : Signature}
    (h : Yields env (fun s => s.Within origin ∧ True) (resolveSignature method) resolved) :
    resolved.result.width = method.result.width := by
  obtain ⟨s, _, ⟨hs, _⟩, hrun⟩ := h
  have hresolved := (runs_resolveSignature.mp hrun).1
  obtain ⟨result, hresult, hrest⟩ := bind_eq_ok.mp hresolved
  obtain ⟨params, _, hsignature⟩ := bind_eq_ok.mp hrest
  cases hsignature
  rw [State.currentType, hs.data] at hresult
  exact Nest.width_resolve haliases hresult

/-- One handler, if the trees that it puts in place of its own are lowered so. -/
theorem drops_tree (h : Recur.Related (steady env origin fun _ => True) Eq recur recur)
    (hplace : ∀ {tree : Tree} {width : Nat}, tree.Leaves width →
      Drops env origin width (recur tree))
    (hlocal : ∀ method, Steady env origin (fun _ => True) (Lowering.localRoutine recur method))
    {node : Tree} (hdirect : node.kind ≠ .block ∧ node.kind ≠ .readField) :
    Drops env origin node.valueType.width (Lowering.tree recur node) := by
  have hdiscard {ty : Ty} : (drops env origin ty.width).Ends (Lower.discard ty)
      (Lower.discard ty) := Drops.discard rfl
  let R := steady env origin fun _ => True
  have hsteady {action : Lower Unit} (hrel : R.Rel action action) :
      (drops env origin 0).Ends action action := Drops.of_steady hrel
  have hR : R.Exact := exact_steady
  have hoptions : Steady env origin (fun _ => True) Lower.options := .options
  have hparts : Recur.Related.Parts R Eq recur recur node := .of_exact hR (fun _ _ _ _ => hoptions) h
  -- an access that is made through a bridge leaves what the bridge returns
  have haccess {access : Tree} {width : Nat} (hwidth : (directAccess access).result.width = width)
      (huse : ∀ {s : State} {use : Tree} {bridges : Bridges}, s.Within origin →
        s.bridges.access? env.nest s.currentType access = some (use, bridges) → use.Leaves width) :
      (drops env origin width).Ends (Lowering.access recur access)
        (Lowering.access recur access) := by
    refine Recur.Related.access ((hR.bridged access).via fun use? ⟨s, _, ⟨hs, _⟩, hrun⟩ =>
      Recur.Related.rel_self ?_) (Lowering.ends_perform h access (Drops.discard hwidth))
    rintro use rfl
    obtain ⟨_, haccess, _⟩ := State.access?_of_bridged (runs_bridged.mp hrun)
    exact hplace (huse hs haccess)
  change (drops env origin node.valueType.width).Ends (Lowering.tree recur node)
    (Lowering.tree recur node)
  cases node with
  | block trees => exact (hdirect.1 rfl).elim
  | readField owner name ty receiver => exact (hdirect.2 rfl).elim
  | invoke kind owner method receiver args =>
    rw [Lowering.tree, Lowering.invoke_eq]
    refine (R.resolve owner).ends fun owner =>
      Congruence.Closing.bind _ (R.resolveSignature method) fun resolved hyields => ?_
    have hwidth := width_result_of_yields haliases hyields
    refine (Recur.Related.checkInvocation R kind owner resolved.name).ends fun _ =>
      haccess hwidth fun hs haccess => ?_
    exact hwidth ▸ hs.fitting.leaves_invoke haccess
  | create ty params args =>
    rw [Lowering.tree, Lowering.create_eq]
    refine Congruence.Closing.bind _ (R.resolve ty) fun resolved hyields =>
      (R.resolveAll params).ends fun params => ?_
    have hwidth := width_of_yields haliases hyields
    exact haccess hwidth fun hs haccess => hwidth ▸ hs.fitting.leaves_create haccess
  | logical operator left right =>
    exact h.logical (Tree.sameTest_self (fun _ _ _ _ => rfl) rfl) hdiscard
  | forEach label binder ty iteration source body =>
    cases iteration with
    | indexed =>
      exact Recur.Related.indexed (R.resolve ty) (R.resolve _)
        fun _ _ _ _ _ _ => hplace (.direct rfl)
    | iterator =>
      exact Recur.Related.iterator (R.resolve ty) fun _ _ _ => hplace (.direct rfl)
  | switch label kind subject arms =>
    cases kind with
    | int => exact hsteady (h.statement_self hR.toPlain hparts rfl)
    | enum => exact Recur.Related.enumSwitch fun _ => hplace (.direct rfl)
    | text | object =>
      exact Recur.Related.hashedSwitch (R.resolve _) fun _ _ _ =>
        R.outcomes_refl Switch.ordinary_hashed fun tree htree => hplace (Tree.leaves_hashed htree)
  | synchronized lock body =>
    exact Recur.Related.synchronized (R.resolve _) fun _ _ _ =>
      hplace (.statements ⟨.direct rfl, .direct rfl⟩)
  | localRoutine method => exact hsteady (hlocal method)
  | declareLocal | branch | forLoop | whileLoop | guarded | ret | breakTo | continueTo | redirect =>
    exact hsteady (h.statement_self hR.toPlain hparts rfl)
  | _ =>
    exact h.ends_operation hR.toPlain hparts rfl fun hs hoperates =>
      Drops.discard (width_of_operates haliases hs.1 hoperates rfl)

/-- A tree is lowered as a statement like a value that is then discarded. -/
theorem drops_run (depth : Nat) {tree : Tree} (h : tree.Leaves width) :
    Drops env origin width (Handlers.standard.run depth tree) := by
  induction depth generalizing tree width with
  | zero => exact fun _ _ _ _ => rfl
  | succ depth ih =>
    rw [Handlers.run_succ]
    cases h with
    | @block trees htrees =>
      let R := steady env origin fun _ => True
      have hparts : R.Rel (trees.forM (Handlers.standard.run depth))
          (trees.forM (Handlers.standard.run depth)) :=
        R.forM fun part hpart => (ih (htrees part hpart)).steady (steady_run depth part)
      exact .of_steady hparts
    | value hdirect =>
      exact drops_tree haliases (related_steady depth) ih
        (Steady.localRoutine (fitted_run depth)) hdirect

/-- A tree other than a block is lowered as a statement to what it is lowered to
as a value, and then the value is discarded. -/
theorem run_statement (hs : s.Within origin) (hdepth : 0 < depth) (fuel : Nat) {tree : Tree}
    (hblock : tree.kind ≠ .block) :
    Handlers.standard.run fuel tree env (s.withDepth 0) =
      dropping (s.valueType env tree).width
        (Handlers.standard.run fuel tree env (s.withDepth depth)) := by
  by_cases hfield : tree.kind = .readField
  · cases tree with
    | readField owner name ty receiver =>
      cases fuel with
      | zero => rfl
      | succ fuel =>
        exact dropping_readField hs hdepth (related_steady fuel) (drops_run haliases fuel)
    | _ => cases hfield
  · have hwidth : (s.valueType env tree).width = tree.valueType.width := by
      have hresolved : s.valueType env tree = env.nest.resolved s.currentType tree.valueType := by
        cases tree with
        | readField owner name ty receiver => exact (hfield rfl).elim
        | _ => rfl
      rw [hresolved, State.currentType, hs.data]
      exact Nest.width_resolved haliases _
    rw [hwidth]
    exact drops_run haliases fuel (.value ⟨hblock, hfield⟩) s depth hs hdepth

end Trees

/-- Run a step at the given depth of nesting. -/
def atDepth (depth : Nat) (action : Lower Unit) : Lower Unit := fun env state =>
  bracket (State.withDepth depth) (State.withDepth state.expressionDepth) action env state

end Lower

/-- Lower trees to values, nested as deep as given, and discard each value; blocks
are lowered so part by part. -/
def Handlers.discarding (depth : Nat) : Nat → Recur
  | 0, tree => throw (.unsettled tree.kind)
  | fuel + 1, .block trees => trees.forM (discarding depth fuel)
  | fuel + 1, tree => do
    let ty := (← get).valueType (← read) tree
    Lower.atDepth depth (standard.run (fuel + 1) tree)
    (Call.discards ty.width).forM fun call => Lower.emit call.run

namespace Lower

variable {env : Env} {origin : State}

theorem discarding_eq (s : State) (depth fuel : Nat) {tree : Tree} (hblock : tree.kind ≠ .block) :
    Handlers.discarding depth fuel tree env (s.withDepth 0) = dropping (s.valueType env tree).width
      (Handlers.standard.run fuel tree env (s.withDepth depth)) := by
  cases fuel with
  | zero => rfl
  | succ fuel =>
    rw [Handlers.discarding]
    · change (atDepth depth (Handlers.standard.run (fuel + 1) tree) >>= fun _ =>
        (Call.discards ((s.withDepth 0).valueType env tree).width).forM fun call =>
          emit call.run) env _ = _
      have hvalue : atDepth depth (Handlers.standard.run (fuel + 1) tree) env (s.withDepth 0) =
          ((Handlers.standard.run (fuel + 1) tree env (s.withDepth depth)).1,
            (Handlers.standard.run (fuel + 1) tree env (s.withDepth depth)).2.withDepth 0) := rfl
      rw [bind_apply, hvalue, State.valueType_withDepth]
      rcases Handlers.standard.run (fuel + 1) tree env (s.withDepth depth) with ⟨_ | _, m⟩
      · rfl
      · rcases (s.valueType env tree).width with _ | _ | _ <;> rfl
    · rintro trees rfl
      exact hblock rfl

theorem forM_congr {trees : List Tree} {recur' : Recur} {inv : State → Prop} {s : State}
    (hs : inv s) (hinv : ∀ tree m, inv m → inv (recur tree env m).2)
    (hsame : ∀ tree m, inv m → recur tree env m = recur' tree env m) :
    trees.forM recur env s = trees.forM recur' env s := by
  induction trees generalizing s with
  | nil => rfl
  | cons tree rest ih =>
    have hnext := hinv tree s hs
    change (recur tree >>= fun _ => rest.forM recur) env s =
      (recur' tree >>= fun _ => rest.forM recur') env s
    rw [bind_apply, bind_apply, ← hsame tree s hs]
    rcases hrun : recur tree env s with ⟨_ | _, m⟩
    · rfl
    · rw [hrun] at hnext
      exact ih hnext

/-- Statements are lowered like values that are discarded. -/
theorem run_eq_discarding (haliases : env.nest.AliasesObjects origin.currentType)
    (hdepth : 0 < depth) (fuel : Nat) (tree : Tree) {s : State}
    (hs : s.Within origin ∧ s.expressionDepth = 0) :
    Handlers.standard.run fuel tree env s = Handlers.discarding depth fuel tree env s := by
  induction fuel generalizing tree s with
  | zero => rfl
  | succ fuel ih =>
    by_cases hblock : tree.kind = .block
    · cases tree with
      | block trees =>
        change trees.forM (Handlers.standard.run fuel) env s =
          trees.forM (Handlers.discarding depth fuel) env s
        refine forM_congr hs (fun part m hm => ⟨within_run hm.1 fuel part, ?_⟩)
          fun part m => ih part
        exact (restores_run fuel part m).depth.trans hm.2
      | _ => cases hblock
    · have hstatement : s = s.withDepth 0 := by
        rw [← hs.2]
        rfl
      rw [hstatement, run_statement haliases hs.1 hdepth _ hblock, discarding_eq s _ _ hblock]

end Lower

/-- A tree in the place of a statement is lowered to what it is lowered to as a
value, however deep the value is nested, and one instruction that discards the
value. Code, labels, regions, slots, constants and bridges are the same, and so
is a fault. A block is lowered so part by part. -/
theorem process_statement {env : Env} {s : State} {depth : Nat}
    (haliases : env.nest.AliasesObjects s.currentType) (hfitting : s.bridges.Fitting)
    (hdepth : 0 < depth) (tree : Tree) :
    let process := Handlers.standard.process tree env
    process (s.withDepth 0) = Handlers.discarding depth
        (Handlers.depthBound env.nest s.cleanups tree.size) tree env (s.withDepth 0) ∧
      (tree.kind ≠ .block → process (s.withDepth 0) =
        Lower.dropping (s.valueType env tree).width (process (s.withDepth depth))) ∧
      ∀ other, 0 < other → process (s.withDepth other) =
        ((process (s.withDepth depth)).1, (process (s.withDepth depth)).2.withDepth other) := by
  have hwithin (depth : Nat) : (s.withDepth depth).Within s := ⟨rfl, hfitting⟩
  have hprocess (depth : Nat) : Handlers.standard.process tree env (s.withDepth depth) =
      Handlers.standard.run (Handlers.depthBound env.nest s.cleanups tree.size) tree env
        (s.withDepth depth) := rfl
  dsimp only
  simp only [hprocess]
  refine ⟨?_, fun hblock => ?_, fun other hother => ?_⟩
  · exact Lower.run_eq_discarding haliases hdepth _ tree ⟨hwithin 0, rfl⟩
  · exact Lower.run_statement haliases ⟨rfl, hfitting⟩ hdepth _ hblock
  · exact (Lower.steady_run _ tree (s.withDepth depth) (hwithin depth) hdepth).2 other hother

/-- A long field that has a bridge already, read as an int: two cells are discarded. -/
theorem process_statement_bridged : ∃ (env : Env) (s : State),
    let read := Tree.readField (.object "Inner") "count" Ty.int none
    s.valueType env read = Ty.long ∧
      (Handlers.standard.process read env (s.withDepth 0)).1.isOk = true ∧
      Handlers.standard.process read env (s.withDepth 0) =
        Lower.dropping 2 (Handlers.standard.process read env (s.withDepth 1)) := by
  let outer := Ty.object "Outer"
  let inner := Ty.object "Inner"
  let nest : Nest := ⟨[.bare outer .classType .publicFlag,
    { TypeDecl.bare inner .classType .publicFlag with
      outer := some outer
      fields := [⟨"count", Ty.long, .privateFlag ||| .staticFlag⟩] }], Nest.libraryTypes⟩
  let bridges := Bridges.empty.after nest [⟨outer, .readField inner "count" Ty.long none⟩]
  let env : Env := ⟨nest, {}⟩
  let s := State.initial nest ⟨.empty, bridges⟩ ⟨outer, "peek", Ty.void, true⟩
  have haliases : env.nest.AliasesObjects s.currentType := by
    have hcurrent : s.currentType = outer := by decide +kernel
    rw [hcurrent]
    intro role ty hrole
    cases role with
    | self =>
      cases hrole
      exact ⟨_, rfl⟩
    | parent | interface index => cases hrole
  have hvalue : s.valueType env (.readField inner "count" Ty.int none) = Ty.long := by
    decide +kernel
  refine ⟨env, s, hvalue, by decide +kernel, ?_⟩
  have hsound : s.bridges.Sound nest := ⟨_, rfl⟩
  have hstatement := (process_statement haliases hsound.fitting Nat.one_pos
    (.readField inner "count" Ty.int none)).2.1 nofun
  rw [hvalue] at hstatement
  exact hstatement

end StackLowering
