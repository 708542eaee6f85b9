import StackLowering.Proofs.Lockstep
import StackLowering.Session
/-!
Private members. Strict lowering decides for each access from the declarations
alone: an access to a private member of another type of the nest goes through a
bridge and fails if there is none, and every other access is performed directly.
With bridges, lowering a nest in the standard way gives what strict lowering
gives, so no routine performs a direct access to a private member of another
type.
-/

namespace StackLowering

/-- A private member of one type of the nest is closed to the others. -/
def Nest.closes (nest : Nest) (requester owner : Ty) (modifiers : Modifiers) : Bool :=
  nest.contains requester && nest.contains owner && requester != owner && modifiers.isPrivate

theorem Nest.crosses_eq_closes (nest : Nest) (requester owner : Ty) (modifiers : Modifiers) :
    nest.crosses requester owner modifiers = nest.closes requester owner modifiers := by
  have hne : (owner != requester) = (requester != owner) := bne_comm
  rw [crosses, closes, hne]
  cases modifiers.isPrivate <;> cases requester != owner <;> cases nest.contains owner <;>
    cases nest.contains requester <;> rfl

/-- The access reaches a member that is closed to the requester. -/
def Nest.trespasses (nest : Nest) (requester : Ty) : Tree → Bool
  | .readField owner name _ _ =>
    (nest.field? owner name).any fun field => nest.closes requester owner field.modifiers
  | .invoke _ owner method _ _ =>
    (nest.method? owner method).any fun found => nest.closes requester owner found.modifiers
  | .create ty params _ =>
    (nest.constructor? ty params).any fun found => nest.closes requester ty found.modifiers
  | _ => false

/-- The access reaches a private member of a type of the nest other than that of
the routine. -/
def State.trespasses (env : Env) (state : State) (access : Tree) : Bool :=
  state.routine?.any fun info => env.nest.trespasses info.owner access

namespace Lowering

open Lower

/-- A read, call or creation with its types resolved, and a call also checked. -/
def resolveAccess : Tree → Lower (Option Tree)
  | .readField owner name ty receiver => do
    let owner ← resolve owner
    let ty ← resolve ty
    return some (.readField owner name ty receiver)
  | .invoke kind owner method receiver args => do
    let owner ← resolve owner
    let method ← resolveSignature method
    checkInvocation kind owner method.name
    return some (.invoke kind owner method receiver args)
  | .create ty params args => do
    let ty ← resolve ty
    let params ← resolveAll params
    return some (.create ty params args)
  | _ => return none

/-- Perform an access directly, unless it reaches a private member of another
type; then use a bridge. -/
def strictAccess (recur : Recur) (access : Tree) : Lower Unit := do
  if (← get).trespasses (← read) access then
    match ← bridged access with
    | some use => recur use
    | none => throw (.unsupportedKind access.kind access)
  else
    perform recur (directAccess access)

end Lowering

/-- The standard handler, except for the way that accesses are performed. -/
def Handler.accessing (perform : Recur → Tree → Lower Unit) (kind : Tree.Kind) : Handler :=
  fun recur tree => do
    match ← Lowering.resolveAccess tree with
    | some access => perform recur access
    | none => Handler.standard kind recur tree

/-- The standard handler, except that accesses are strict. -/
def Handler.strict (kind : Tree.Kind) : Handler := fun recur tree => do
  match ← Lowering.resolveAccess tree with
  | some access => Lowering.strictAccess recur access
  | none => Handler.standard kind recur tree

def Handlers.strict : Handlers := ⟨fun kind => some (.strict kind)⟩

def Member.isConstructor : Member → Bool
  | constructor .. => true
  | _ => false

theorem Member.isConstructor_field (owner : Ty) (name : String) :
    (Member.field owner name).isConstructor = false := rfl

theorem Member.isConstructor_method (owner : Ty) (signature : Signature) :
    (Member.method owner signature).isConstructor = false := rfl

variable {shared : Shared} {nest : Nest} {s : State} {info : RoutineInfo}

namespace Bridges

variable {bridges bridges' : Bridges} {member : Member} {requester : Ty}

/-- Constructors are bridged by constructors and other members by methods. -/
def Fit (bridges : Bridges) : Prop :=
  ∀ bridge ∈ bridges.entries, bridge.isAccessor = !bridge.member.isConstructor

theorem Fit.addRequester (h : bridges.Fit) (member : Member) (requester : Ty) :
    (bridges.addRequester member requester).Fit := by
  intro bridge hmem
  obtain ⟨before, hbefore, rfl⟩ := List.mem_map.mp hmem
  have hfits := h before hbefore
  split_ifs
  · unfold Bridge.addRequester
    split_ifs <;> exact hfits
  · exact hfits

theorem Fit.addBridge (h : bridges.Fit) {decl : BridgeDecl}
    (hfits : Bridge.isAccessor ⟨member, [requester], decl⟩ = !member.isConstructor) :
    (bridges.addBridge member requester decl).Fit := by
  intro bridge hmem
  rcases List.mem_append.mp hmem with hold | hnew
  · exact h bridge hold
  · rw [List.mem_singleton.mp hnew]
    exact hfits

theorem Fit.isAccessor (h : bridges.Fit) {bridge : Bridge}
    (hfind : bridges.find? member = some bridge) :
    bridge.isAccessor = !member.isConstructor := by
  have hmember : bridge.member = member := by
    simpa using List.find?_some hfind
  rw [h bridge (List.mem_of_find?_eq_some hfind), hmember]

theorem Fit.accessor (h : bridges.Fit) (hmember : member.isConstructor = false) (requester : Ty)
    (build : String → Method) :
    ∃ decl bridges', bridges.accessor member requester build = some (decl, bridges') ∧
      bridges'.Fit := by
  unfold Bridges.accessor
  cases hfind : bridges.find? member with
  | none =>
    refine ⟨_, _, rfl, h.addBridge ?_⟩
    rw [hmember]
    rfl
  | some bridge =>
    have haccessor := h.isAccessor hfind
    rw [hmember] at haccessor
    obtain ⟨_, _, decl⟩ := bridge
    cases decl with
    | method decl => exact ⟨_, _, rfl, h.addRequester _ _⟩
    | constructor decl => cases haccessor

/-- A constructor gets a bridge constructor. -/
theorem Fit.constructor (h : bridges.Fit) (nest : Nest) (requester owner : Ty) (types : List Ty)
    (declared : List Param) :
    ∃ decl bridges', bridges.constructor nest requester owner types declared =
      some (decl, bridges') ∧ bridges'.Fit := by
  unfold Bridges.constructor
  cases hfind : bridges.find? (.constructor owner types) with
  | none =>
    have hmarked : (bridges.newMarker nest owner).2.Fit := h
    dsimp only
    rw [hfind]
    exact ⟨_, _, rfl, hmarked.addBridge rfl⟩
  | some bridge =>
    have haccessor := h.isAccessor hfind
    obtain ⟨_, _, decl⟩ := bridge
    dsimp only
    rw [hfind]
    cases decl with
    | constructor decl => exact ⟨_, _, rfl, h.addRequester _ _⟩
    | method decl => cases haccessor

/-- An access to a private member of another type gets a bridge. -/
theorem Fit.access? (h : bridges.Fit) {access : Tree}
    (htrespasses : nest.trespasses requester access = true) :
    ∃ use bridges', bridges.access? nest requester access = some (use, bridges') ∧
      bridges'.Fit := by
  cases access with
  | readField owner name ty receiver =>
    obtain ⟨field, hfield, hcloses⟩ := (Option.any_eq_true _ _).mp htrespasses
    obtain ⟨decl, bridges', hdecl, hfit⟩ := h.accessor (Member.isConstructor_field owner name) requester
      (Bridge.fieldAccessor · owner name ty field.modifiers.isStatic)
    simp [Bridges.access?, hfield, nest.crosses_eq_closes, hcloses, hdecl, hfit]
  | invoke kind owner method receiver args =>
    obtain ⟨found, hfound, hcloses⟩ := (Option.any_eq_true _ _).mp htrespasses
    obtain ⟨decl, bridges', hdecl, hfit⟩ := h.accessor
      (Member.isConstructor_method owner method) requester (Bridge.forwarder · owner method found.params found.modifiers.isStatic)
    simp [Bridges.access?, hfound, nest.crosses_eq_closes, hcloses, hdecl, hfit]
  | create ty params args =>
    obtain ⟨found, hfound, hcloses⟩ := (Option.any_eq_true _ _).mp htrespasses
    obtain ⟨decl, bridges', hdecl, hfit⟩ := h.constructor nest requester ty params found.params
    simp [Bridges.access?, hfound, nest.crosses_eq_closes, hcloses, hdecl, hfit]
  | _ => cases htrespasses

/-- Any other access gets none. -/
theorem access?_eq_none {access : Tree} (hpermitted : nest.trespasses requester access = false) :
    bridges.access? nest requester access = none := by
  cases access with
  | readField owner name ty receiver =>
    cases hfield : nest.field? owner name with
    | none => simp [Bridges.access?, hfield]
    | some field =>
      have hcloses : nest.closes requester owner field.modifiers = false := by
        simpa [Nest.trespasses, hfield] using hpermitted
      simp [Bridges.access?, hfield, nest.crosses_eq_closes, hcloses]
  | invoke kind owner method receiver args =>
    cases hfound : nest.method? owner method with
    | none => simp [Bridges.access?, hfound]
    | some found =>
      have hcloses : nest.closes requester owner found.modifiers = false := by
        simpa [Nest.trespasses, hfound] using hpermitted
      simp [Bridges.access?, hfound, nest.crosses_eq_closes, hcloses]
  | create ty params args =>
    cases hfound : nest.constructor? ty params with
    | none => simp [Bridges.access?, hfound]
    | some found =>
      have hcloses : nest.closes requester ty found.modifiers = false := by
        simpa [Nest.trespasses, hfound] using hpermitted
      simp [Bridges.access?, hfound, nest.crosses_eq_closes, hcloses]
  | _ => rfl

theorem Fit.of_access? (h : bridges.Fit) {access use : Tree}
    (haccess : bridges.access? nest requester access = some (use, bridges')) : bridges'.Fit := by
  cases htrespasses : nest.trespasses requester access with
  | false =>
    rw [access?_eq_none htrespasses] at haccess
    cases haccess
  | true =>
    obtain ⟨_, _, hfound, hfit⟩ := h.access? htrespasses
    rw [hfound] at haccess
    cases haccess
    exact hfit

end Bridges

namespace Scopes

theorem push_set {α : Type} [Storable α] (scopes : Scopes) (key : Key α) (value : α) :
    scopes.push.set key value =
      ⟨[(key.name, Storable.toDatum value)] :: scopes.inner, scopes.root⟩ := by
  simp [push, set, modifyAt, depth, Scope.set, Scope.erase]

theorem foldl_enclosingType (types : List Ty) (scopes : Scopes) :
    (types.foldl (fun scopes ty => scopes.push.set .enclosingType ty) scopes).inner =
        (types.reverse.map fun ty => [("enclosing-type", Datum.ty ty)]) ++ scopes.inner ∧
      (types.foldl (fun scopes ty => scopes.push.set .enclosingType ty) scopes).root =
        scopes.root := by
  induction types generalizing scopes with
  | nil => exact ⟨rfl, rfl⟩
  | cons ty rest ih =>
    obtain ⟨hinner, hroot⟩ := ih (scopes.push.set .enclosingType ty)
    rw [List.foldl_cons, hinner, hroot, push_set]
    simp [Key.enclosingType, Storable.toDatum]

end Scopes

namespace State

theorem data_initial (nest : Nest) (shared : Shared) (info : RoutineInfo) :
    (initial nest shared info).data =
      ⟨(info.owner :: nest.enclosing info.owner).map fun ty => [("enclosing-type", Datum.ty ty)],
        [("routine", Datum.routine info)]⟩ := by
  obtain ⟨hinner, hroot⟩ := Scopes.foldl_enclosingType
    ((nest.enclosing info.owner).reverse ++ [info.owner]) Scopes.empty
  simp only [initial, Scopes.setRoot, Scopes.modifyAt, if_pos, hinner, hroot]
  simp [Scopes.empty, Scope.set, Scope.erase, Key.routine, Storable.toDatum]

theorem currentType_of_data (h : s.data = (initial nest shared info).data) :
    s.currentType = info.owner := by
  rw [currentType, h, data_initial]
  simp [Scopes.get?, Scopes.all, Scope.get?, Key.enclosingType, Storable.ofDatum?]

theorem routine?_of_data (h : s.data = (initial nest shared info).data) :
    s.routine? = some info := by
  have hinner : List.findSome? (fun scope : Scope => scope.get? "routine")
      ((info.owner :: nest.enclosing info.owner).map
        fun ty => [("enclosing-type", Datum.ty ty)]) = none := by
    simp [Scope.get?]
  rw [routine?, h, data_initial]
  simp only [Scopes.get?, Scopes.all, Key.routine, List.findSome?_append, hinner]
  rfl

end State

section Strict

variable {env : Env} {data : Scopes} {recur recur' : Recur}

/-- Both sides are in the same state. -/
def Coupling.same (env : Env) : Coupling env where
  code := fun left locals right others => right = left ∧ others = locals
  registry := Bridges.Fit
  lenient := False
  size_eq := fun h => congrArg (fun asm => asm.positions.size) h.1
  run := fun {_ _ _ _ call} _ h => ⟨congrArg call.run h.1, h.2⟩
  access := fun hfit haccess => hfit.of_access? haccess

theorem State.Coupled.eq {t : State} (h : s.Coupled (Coupling.same env) data t) : t = s := by
  obtain ⟨⟨hassembler, hroutines⟩, _, hbridges, hleft, hright, hflows, hslots, hcleanups, hdepth⟩ := h
  cases s
  cases t
  simp_all

theorem State.coupled_same (hfit : s.bridges.Fit) (hdata : s.data = data) :
    s.Coupled (Coupling.same env) data s :=
  ⟨⟨rfl, rfl⟩, hfit, rfl, hdata, hdata, rfl, rfl, rfl, rfl⟩

namespace Lowering

open Lower

section Relations

variable {domain : State → Prop} {R : Congruence env domain}

theorem ends_perform {E : R.Closing} (h : Recur.Related R Eq recur recur') (access : Tree)
    (hdiscard : E.Ends (Lower.discard (directAccess access).result)
      (Lower.discard (directAccess access).result)) :
    E.Ends (perform recur (directAccess access)) (perform recur' (directAccess access)) :=
  h.perform_self (fun _ _ => rfl) (inner_directAccess access) hdiscard

theorem rel_perform (h : Recur.Related R Eq recur recur')
    (hdiscard : ∀ ty, R.Rel (Lower.discard ty) (Lower.discard ty)) (access : Tree) :
    R.Rel (perform recur (directAccess access)) (perform recur' (directAccess access)) :=
  ends_perform (E := R.closing) h access (hdiscard _)

/-- To compare with the standard handlers those that perform accesses in another
way, it is enough to compare accesses whose types are resolved. -/
theorem rel_accessing {other : Recur → Tree → Lower Unit}
    (haccess : ∀ tree, R.Rel (access recur tree) (other recur' tree)) {node : Tree}
    (hnode : R.Rel (tree recur node) (tree recur' node)) :
    R.Rel (Handler.standard node.kind recur node)
      (Handler.accessing other node.kind recur' node) := by
  have hstandard (recur : Recur) : Handler.standard node.kind recur node = tree recur node :=
    if_pos rfl
  rw [Handler.accessing, hstandard, hstandard]
  cases node with
  | readField owner name ty receiver =>
    rw [tree, readField_eq]
    simp only [resolveAccess, bind_assoc, pure_bind]
    exact (R.resolve owner).bind fun owner => (R.resolve ty).bind fun ty => haccess _
  | invoke kind owner method receiver args =>
    rw [tree, invoke_eq]
    simp only [resolveAccess, bind_assoc, pure_bind]
    refine (R.resolve owner).bind fun owner => (R.resolveSignature method).bind fun method => ?_
    exact (Recur.Related.checkInvocation R kind owner method.name).bind fun _ => haccess _
  | create ty params args =>
    rw [tree, create_eq]
    simp only [resolveAccess, bind_assoc, pure_bind]
    exact (R.resolve ty).bind fun ty => (R.resolveAll params).bind fun params => haccess _
  | _ =>
    simp only [resolveAccess, pure_bind]
    exact hnode

end Relations

/-- With bridges, an access that is lowered in the standard way is strict. -/
theorem follows_access (hbridges : env.options.bridges = true)
    (hdata : data = (State.initial env.nest shared info).data)
    (h : Recur.Follows (Coupling.same env) data recur recur') (tree : Tree) :
    Lower.Follows (Coupling.same env) data (access recur tree) (strictAccess recur' tree) := by
  have hinfo {s : State} (hs : s.data = data) : s.currentType = info.owner ∧
      s.trespasses env tree = env.nest.trespasses info.owner tree := by
    refine ⟨State.currentType_of_data (hs.trans hdata), ?_⟩
    rw [State.trespasses, State.routine?_of_data (hs.trans hdata)]
    rfl
  refine .of_states fun {s t} hst => ?_
  have hstrict : strictAccess recur' tree env t = (if t.trespasses env tree then
      (do match ← bridged tree with
          | some use => recur' use
          | none => throw (.unsupportedKind tree.kind tree))
      else perform recur' (directAccess tree)) env t := rfl
  rw [(hinfo hst.data_right).2] at hstrict
  cases hprivate : env.nest.trespasses info.owner tree with
  | true =>
    rw [hprivate, if_pos rfl] at hstrict
    refine ⟨access recur tree, _, rfl, hstrict, ?_⟩
    refine (Follows.bridged tree).bind_runs fun {s _ use _} hst hrun => ?_
    cases use with
    | some use => exact h use
    | none =>
      -- the bridges fit, so there is one
      obtain ⟨_, _, hfound, _⟩ := hst.registry.access? hprivate
      have hbridged := runs_bridged.mp hrun
      rw [State.bridged, if_pos hbridges, (hinfo hst.data_left).1, hfound] at hbridged
      cases hbridged
  | false =>
    rw [hprivate, if_neg Bool.false_ne_true] at hstrict
    refine ⟨perform recur (directAccess tree), _, ?_, hstrict, rel_perform h.related .discard tree⟩
    have hbridged : Runs (bridged tree) env s none s := by
      rw [runs_bridged, State.bridged, if_pos hbridges, (hinfo hst.data_left).1,
        Bridges.access?_eq_none hprivate]
    rw [access, bind_apply, hbridged]

theorem follows_strict (hbridges : env.options.bridges = true)
    (hdata : data = (State.initial env.nest shared info).data)
    (h : Recur.Follows (Coupling.same env) data recur recur')
    (hlocal : ∀ method, Lower.Follows (Coupling.same env) data (localRoutine recur method)
      (localRoutine recur' method)) (node : Tree) :
    Lower.Follows (Coupling.same env) data (Handler.standard node.kind recur node)
      (Handler.strict node.kind recur' node) := by
  let R := follows (Coupling.same env) data
  have hnode : R.Rel (tree recur node) (tree recur' node) := h.tree hlocal node
  exact rel_accessing (R := R) (follows_access hbridges hdata h) hnode

/-- Routines whose bodies are followed are the same on both sides. -/
theorem routine_follows {decl : RoutineDecl} {shared' : Shared} {result : Routine × List Routine}
    (hfit : shared.bridges.Fit)
    (h : Recur.Follows (Coupling.same env) (State.initial env.nest shared decl.info).data
      recur recur') (hroutine : routine recur decl env shared = (.ok result, shared')) :
    routine recur' decl env shared = (.ok result, shared') ∧ shared'.bridges.Fit := by
  obtain ⟨t, output, hbody, houtput, rfl, rfl⟩ := routine_eq_ok.mp hroutine
  have hstart : (State.initial env.nest shared decl.info).Coupled (Coupling.same env) _
      (State.initial env.nest shared decl.info) := State.coupled_same hfit rfl
  have hlowered := h.related.routineBody exact_follows.toPlain decl rfl
  rcases hlowered hstart hbody with ⟨t', hbody', htt'⟩ | ⟨hlenient, _⟩
  · obtain rfl := htt'.eq
    exact ⟨routine_eq_ok.mpr ⟨_, output, hbody', houtput, rfl, rfl⟩, htt'.registry⟩
  · exact hlenient.elim

theorem follows_localRoutine
    (h : ∀ shared info, Recur.Follows (Coupling.same env)
      (State.initial env.nest shared info).data recur recur') (method : Method) :
    Lower.Follows (Coupling.same env) data (localRoutine recur method)
      (localRoutine recur' method) := by
  refine .of_eq fun {s t} hst _ s' hrun => ?_
  obtain rfl := hst.eq
  cases hdecl : RoutineDecl.ofMethod? t.currentType method with
  | none =>
    rw [(runs_localRoutine_bodiless hdecl).mp hrun]
    exact ⟨t, (runs_localRoutine_bodiless hdecl).mpr rfl, hst⟩
  | some decl =>
    obtain ⟨lowered, nested, shared, hroutine, rfl⟩ := (runs_localRoutine hdecl).mp hrun
    have hshared : t.shared.bridges.Fit := hst.registry
    obtain ⟨hroutine', hfit⟩ := routine_follows hshared (h _ _) hroutine
    refine ⟨_, (runs_localRoutine hdecl).mpr ⟨lowered, nested, shared, hroutine', rfl⟩, ?_⟩
    exact State.coupled_same hfit hst.data_left

theorem follows_run (hbridges : env.options.bridges = true) (depth : Nat) (shared : Shared)
    (info : RoutineInfo) : Recur.Follows (Coupling.same env)
      (State.initial env.nest shared info).data (Handlers.standard.run depth)
      (Handlers.strict.run depth) := by
  -- a local routine is lowered one level deeper, with its own data
  induction depth generalizing shared info with
  | zero => exact fun tree => .throw _ _
  | succ depth ih =>
    exact fun tree => follows_strict hbridges rfl (ih shared info) (follows_localRoutine ih) tree

theorem routine_strict (hbridges : env.options.bridges = true) {decl : RoutineDecl}
    {shared' : Shared} {result : Routine × List Routine} (hfit : shared.bridges.Fit)
    (h : routine Handlers.standard.process decl env shared = (.ok result, shared')) :
    routine Handlers.strict.process decl env shared = (.ok result, shared') ∧
      shared'.bridges.Fit :=
  routine_follows hfit (Recur.Follows.process fun depth => follows_run hbridges depth _ _) h

end Lowering

end Strict

namespace Session

variable {session next : Session}

/-- The session with strict handlers. -/
def strictly (session : Session) : Session := { session with handlers := .strict }

/-- Standard handlers that reach private members through bridges. -/
structure Bridging (session : Session) : Prop where
  handlers : session.handlers = .standard
  bridges : session.env.options.bridges = true
  fit : session.shared.bridges.Fit

theorem Bridging.lowerRoutine (h : session.Bridging) {decl : RoutineDecl} {routine : Routine}
    (hlower : session.lowerRoutine decl = (.ok routine, next)) :
    session.strictly.lowerRoutine decl = (.ok routine, next.strictly) ∧ next.Bridging := by
  unfold Session.lowerRoutine at hlower ⊢
  rw [h.handlers] at hlower
  rcases hresult : Lowering.routine Handlers.standard.process decl session.env session.shared with
    ⟨fault | ⟨lowered, locals⟩, shared⟩
  · rw [hresult] at hlower
    cases hlower
  · rw [hresult] at hlower
    cases hlower
    obtain ⟨hstrict, hfit⟩ := Lowering.routine_strict h.bridges h.fit hresult
    have hprocess : Lowering.routine session.strictly.handlers.process decl session.strictly.env
        session.strictly.shared = (.ok (routine, locals), shared) := hstrict
    rw [hprocess]
    exact ⟨rfl, rfl, h.bridges, hfit⟩

theorem Bridging.lowerAll (h : session.Bridging) {decls : List RoutineDecl}
    {routines : List Routine} (hlower : session.lowerAll decls = .ok (routines, next)) :
    session.strictly.lowerAll decls = .ok (routines, next.strictly) ∧ next.Bridging := by
  induction decls generalizing session routines with
  | nil =>
    cases hlower
    exact ⟨rfl, h⟩
  | cons decl rest ih =>
    rcases hresult : session.lowerRoutine decl with ⟨outcome, after⟩
    simp only [Session.lowerAll, hresult, bind_eq_ok] at hlower
    obtain ⟨routine, rfl, ⟨later, done⟩, hrest, hlower⟩ := hlower
    cases hlower
    obtain ⟨hfirst, hafter⟩ := h.lowerRoutine hresult
    have htaken : after.takeLocalRoutines.2.Bridging := ⟨hafter.handlers, hafter.bridges, hafter.fit⟩
    obtain ⟨hrest', hdone⟩ := ih htaken hrest
    refine ⟨?_, hdone⟩
    simp only [Session.lowerAll, hfirst, bind_eq_ok]
    exact ⟨routine, rfl, _, hrest', rfl⟩

theorem Bridging.lowerBridges (h : session.Bridging) {start rounds : Nat}
    {routines : List Routine} (hlower : session.lowerBridges start rounds = .ok (routines, next)) :
    session.strictly.lowerBridges start rounds = .ok (routines, next.strictly) ∧
      next.Bridging := by
  induction rounds generalizing session start routines with
  | zero =>
    cases hlower
    exact ⟨rfl, h⟩
  | succ rounds ih =>
    unfold Session.lowerBridges at hlower ⊢
    have hpending : session.strictly.shared.bridges.drop start =
      session.shared.bridges.drop start := rfl
    rw [hpending]
    cases hdrop : session.shared.bridges.drop start with
    | nil =>
      rw [hdrop] at hlower
      cases hlower
      exact ⟨rfl, h⟩
    | cons first others =>
      rw [hdrop] at hlower
      obtain ⟨⟨lowered, after⟩, hround, hlower⟩ := bind_eq_ok.mp hlower
      obtain ⟨⟨later, done⟩, hrest, hlower⟩ := bind_eq_ok.mp hlower
      cases hlower
      obtain ⟨hround', hafter⟩ := h.lowerAll hround
      obtain ⟨hrest', hdone⟩ := ih hafter hrest
      refine ⟨?_, hdone⟩
      exact bind_eq_ok.mpr ⟨_, hround', bind_eq_ok.mpr ⟨_, hrest', rfl⟩⟩

/-- With bridges, lowering a nest gives what strict lowering gives. Strict
lowering never performs a direct access to a private member of another type of
the nest, so there is none in any routine, in any local routine or in the body
of any bridge. -/
theorem lowerNest_strict {nest : Nest} {options : Options} {lowered : LoweredNest}
    (hbridges : options.bridges = true)
    (h : (Session.new nest options .standard).lowerNest = .ok lowered) :
    (Session.new nest options .strict).lowerNest = .ok lowered := by
  have hstart : (Session.new nest options .standard).Bridging :=
    ⟨rfl, hbridges, List.forall_mem_nil _⟩
  unfold lowerNest at h ⊢
  obtain ⟨⟨declared, middle⟩, hdeclared, h⟩ := bind_eq_ok.mp h
  obtain ⟨⟨bridged, done⟩, hbridged, h⟩ := bind_eq_ok.mp h
  cases h
  obtain ⟨hdeclared', hmiddle⟩ := hstart.lowerAll hdeclared
  obtain ⟨hbridged', _⟩ := hmiddle.lowerBridges hbridged
  exact bind_eq_ok.mpr ⟨_, hdeclared', bind_eq_ok.mpr ⟨_, hbridged', rfl⟩⟩

/-- A type whose routine creates an object of a nested type and reads its field,
both of which are private. -/
theorem lowerNest_strict_inner :
    ∃ nest : Nest, nest.trespasses (.object "Outer") (.create (.object "Inner") [] []) = true ∧
      nest.trespasses (.object "Outer") (.readField (.object "Inner") "hidden" Ty.int none) = true ∧
      ∃ lowered, (Session.new nest {} .standard).lowerNest = .ok lowered ∧
        lowered.bridges.length = 2 ∧ lowered.routines.length = 4 ∧
        (Session.new nest {} .strict).lowerNest = .ok lowered := by
  refine ⟨⟨[{ TypeDecl.bare (.object "Outer") .classType .publicFlag with
      methods := [⟨"peek", .staticFlag, Ty.int, [], some (.ret (some (.readField (.object "Inner")
        "hidden" Ty.int (some (.create (.object "Inner") [] [])))))⟩] },
    { TypeDecl.bare (.object "Inner") .classType .publicFlag with
      outer := some (.object "Outer")
      fields := [⟨"hidden", Ty.int, .privateFlag⟩]
      constructors := [⟨.privateFlag, [], some .nothing⟩] }], Nest.libraryTypes⟩,
    by decide +kernel, by decide +kernel, ?_⟩
  generalize hresult : (Session.new _ _ .standard).lowerNest = result
  cases result with
  | error fault =>
    have hfails : _ = false := congrArg Except.isOk hresult
    exact absurd hfails (by decide +kernel)
  | ok lowered =>
    have hsizes : _ = (lowered.bridges.length, lowered.routines.length) :=
      congrArg (fun result : Except Fault LoweredNest => result.toOption.elim (0, 0)
        fun lowered => (lowered.bridges.length, lowered.routines.length)) hresult
    have hcount := Prod.mk.inj (hsizes.symm.trans (by decide +kernel : _ = (2, 4)))
    exact ⟨lowered, rfl, hcount.1, hcount.2, lowerNest_strict rfl hresult⟩

end Session

end StackLowering
