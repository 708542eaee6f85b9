import StackLowering.Proofs.BridgeRegistry
/-!
What a nest is lowered to. Each declared routine is followed by the routines
declared in its body, and the routines of the bridges come last, one for each
bridge. A bridge uses only members of its own type, so lowering it asks for no
further bridge. Linked lowering refuses to use a bridge that none of the given
routines implements; with the routines of the bridges it gives what standard
lowering gives.
-/

namespace StackLowering

/-- Trees are lowered by the standard handlers. -/
def Recur.IsStandard (recur : Recur) : Prop :=
  recur = Handlers.standard.process ∨ ∃ depth, recur = Handlers.standard.run depth

/-- A routine, followed by those that are declared in its body. -/
inductive Family (env : Env) : RoutineDecl → List Routine → Prop
  | intro {recur : Recur} {decl : RoutineDecl} {routine : Routine} {shared shared' : Shared}
      {decls : List RoutineDecl} {families : List (List Routine)} (hrecur : recur.IsStandard)
      (hroutine : Lowering.routine recur decl env shared =
        (.ok (routine, families.flatten), shared'))
      (hdecls : ∀ inner ∈ decls, ∃ method, RoutineDecl.ofMethod? decl.owner method = some inner)
      (hfamilies : List.Forall₂ (Family env) decls families) :
      Family env decl (routine :: families.flatten)

/-- Routines that are declared in code of `owner`, each with its family. -/
def Families (env : Env) (owner : Ty) (routines : List Routine) : Prop :=
  ∃ decls families, (∀ decl ∈ decls, ∃ method, RoutineDecl.ofMethod? owner method = some decl) ∧
    List.Forall₂ (Family env) decls families ∧ routines = families.flatten

variable {shared shared' : Shared} {locals : List Routine}

namespace Families

variable {env : Env} {owner : Ty}

theorem nil : Families env owner [] := ⟨[], [], List.forall_mem_nil _, .nil, rfl⟩

theorem append {first second : List Routine} (h : Families env owner first)
    (h' : Families env owner second) : Families env owner (first ++ second) := by
  obtain ⟨decls, families, hdecls, hfamilies, rfl⟩ := h
  obtain ⟨decls', families', hdecls', hfamilies', rfl⟩ := h'
  refine ⟨decls ++ decls', families ++ families', ?_, ?_, List.flatten_append.symm⟩
  · intro decl hdecl
    rcases List.mem_append.mp hdecl with hfirst | hsecond
    · exact hdecls decl hfirst
    · exact hdecls' decl hsecond
  · exact List.rel_append hfamilies hfamilies'

theorem of_family {method : Method} {decl : RoutineDecl} {family : List Routine}
    (hdecl : RoutineDecl.ofMethod? owner method = some decl) (h : Family env decl family) :
    Families env owner family := by
  refine ⟨[decl], [family], ?_, .cons h .nil, ?_⟩
  · intro inner hinner
    rw [List.mem_singleton.mp hinner]
    exact ⟨method, hdecl⟩
  · rw [List.flatten_singleton]

theorem family {recur : Recur} {decl : RoutineDecl} {routine : Routine}
    (h : Families env decl.owner locals) (hrecur : recur.IsStandard)
    (hroutine : Lowering.routine recur decl env shared = (.ok (routine, locals), shared')) :
    Family env decl (routine :: locals) := by
  obtain ⟨decls, families, hdecls, hfamilies, rfl⟩ := h
  exact .intro hrecur hroutine hdecls hfamilies

end Families

/-- The signature that a bridge is called by. -/
def BridgeDecl.signature : BridgeDecl → Signature
  | method decl => decl.signature
  | constructor decl => ⟨Signature.constructorName, Ty.void, decl.paramTypes⟩

/-- The routine has this owner, name and descriptor. -/
def Routine.implements (routine : Routine) (owner : Ty) (signature : Signature) : Bool :=
  routine.owner == owner && routine.name == signature.name &&
    routine.descriptor == signature.descriptor

/-- What a call or a creation runs. -/
def Tree.callee? : Tree → Option (Ty × Signature)
  | .invoke _ owner method _ _ => some (owner, method)
  | .create ty params _ => some (ty, ⟨Signature.constructorName, Ty.void, params⟩)
  | _ => none

/-- One of the routines is what the tree runs. -/
def Tree.linksTo (routines : List Routine) (tree : Tree) : Bool :=
  tree.callee?.any fun (owner, signature) => routines.any (·.implements owner signature)

namespace Lowering

open Lower

/-- Use a bridge for an access only if one of the routines implements it. -/
def linkedAccess (routines : List Routine) (recur : Recur) (access : Tree) : Lower Unit := do
  match ← bridged access with
  | some use =>
    if use.linksTo routines then recur use else throw (.unsupportedKind use.kind use)
  | none => perform recur (directAccess access)

end Lowering

/-- The standard handlers, except that uses of bridges are linked. -/
def Handlers.linked (routines : List Routine) : Handlers :=
  ⟨fun kind => some (.accessing (Lowering.linkedAccess routines) kind)⟩

namespace Bridges

variable {nest : Nest} {bridges bridges' : Bridges} {routines : List Routine} {requester : Ty}
  {access use : Tree}

/-- Every bridge is implemented by one of the routines. -/
def Linked (routines : List Routine) (bridges : Bridges) : Prop :=
  ∀ member decl, (member, decl) ∈ bridges.declarations →
    routines.any (·.implements member.owner decl.signature) = true

theorem Linked.mono (h : bridges'.Linked routines)
    (hgrows : bridges.declarations <+: bridges'.declarations) : bridges.Linked routines :=
  fun member decl hmem => h member decl (hgrows.subset hmem)

theorem grows_access? (haccess : bridges.access? nest requester access = some (use, bridges')) :
    bridges.declarations <+: bridges'.declarations := by
  obtain ⟨member, decl, _, _, hanswers⟩ := answers_of_access? haccess
  exact hanswers.grows

theorem callee?_of_through? {member : Member} {decl : BridgeDecl}
    (hmember : access.member? = some member) (huse : nest.through? access decl = some use) :
    use.callee? = some (member.owner, decl.signature) := by
  cases access with
  | readField owner name ty receiver =>
    cases hmember
    cases decl with
    | method decl =>
      obtain ⟨field, _, hinvoke⟩ := by
        simpa only [Nest.through?, Option.bind_eq_bind, Option.bind_eq_some_iff] using huse
      cases hinvoke
      rfl
    | constructor decl => cases huse
  | invoke kind owner method receiver args =>
    cases hmember
    cases decl with
    | method decl =>
      obtain ⟨found, _, hinvoke⟩ := by
        simpa only [Nest.through?, Option.bind_eq_bind, Option.bind_eq_some_iff] using huse
      cases hinvoke
      rfl
    | constructor decl => cases huse
  | create ty params args =>
    cases hmember
    cases decl with
    | method decl => cases huse
    | constructor decl =>
      cases huse
      rfl
  | _ => cases hmember

theorem Linked.linksTo (h : bridges'.Linked routines)
    (haccess : bridges.access? nest requester access = some (use, bridges')) :
    use.linksTo routines = true := by
  obtain ⟨member, decl, hmember, huse, hanswers⟩ := answers_of_access? haccess
  rw [Tree.linksTo, callee?_of_through? hmember huse]
  exact h member decl hanswers.mem

end Bridges

namespace State

/-- From one state to the other, bridges and families of local routines are added. -/
structure Adds (env : Env) (owner : Ty) (s s' : State) : Prop where
  data : s'.data = s.data
  sound : s.bridges.Sound env.nest → s'.bridges.Sound env.nest
  grows : s.bridges.declarations <+: s'.bridges.declarations
  locals : ∃ locals, Families env owner locals ∧ s'.localRoutines = s.localRoutines ++ locals

namespace Adds

variable {env : Env} {owner : Ty} {s m s' : State}

theorem of_eq (hdata : s'.data = s.data) (hbridges : s'.bridges = s.bridges)
    (hlocals : s'.localRoutines = s.localRoutines) : s.Adds env owner s' where
  data := hdata
  sound := by
    rw [hbridges]
    exact id
  grows := by rw [hbridges]
  locals := ⟨[], .nil, by rw [hlocals, List.append_nil]⟩

theorem refl (s : State) : s.Adds env owner s := of_eq rfl rfl rfl

theorem trans (h : s.Adds env owner m) (h' : m.Adds env owner s') : s.Adds env owner s' where
  data := h'.data.trans h.data
  sound := h'.sound ∘ h.sound
  grows := h.grows.trans h'.grows
  locals := by
    obtain ⟨first, hfirst, hm⟩ := h.locals
    obtain ⟨second, hsecond, hs'⟩ := h'.locals
    refine ⟨first ++ second, hfirst.append hsecond, ?_⟩
    rw [hs', hm, List.append_assoc]

theorem bridged {access : Tree} {use : Option Tree} (h : s.bridged env access = (use, s')) :
    s.Adds env owner s' := by
  cases use with
  | none =>
    rw [State.eq_of_bridged_eq_none h]
    exact refl s
  | some use =>
    obtain ⟨bridges, haccess, rfl⟩ := State.access?_of_bridged h
    refine ⟨rfl, fun hsound => hsound.access? haccess, Bridges.grows_access? haccess, [], .nil, ?_⟩
    rw [List.append_nil]

end Adds

end State

namespace Lower

variable {α β : Type} {env : Env} {routines : List Routine} {owner : Ty} {data : Scopes}

/-- The first step only adds to the state, and the second one does the same if
all bridges there are in the end are implemented. -/
def Links (env : Env) (routines : List Routine) (owner : Ty) (data : Scopes)
    (first second : Lower α) : Prop :=
  ∀ (s s' : State) (value : α), s.data = data → Runs first env s value s' →
    s.Adds env owner s' ∧ (s'.bridges.Linked routines → Runs second env s value s')

namespace Links

theorem of_runs {action : Lower α}
    (h : ∀ {s s' : State} {value : α}, Runs action env s value s' → s.Adds env owner s') :
    Links env routines owner data action action :=
  fun _ _ _ _ hrun => ⟨h hrun, fun _ => hrun⟩

theorem reads {f : Env → α} :
    Links env routines owner data (do return f (← read)) (do return f (← read)) := by
  refine of_runs fun hrun => ?_
  cases hrun
  exact .refl _

theorem bind {first second : Lower α} {next next' : α → Lower β}
    (h : Links env routines owner data first second)
    (hnext : ∀ value, Yields env (fun s => s.data = data) first value →
      Links env routines owner data (next value) (next' value)) :
    Links env routines owner data (first >>= next) (second >>= next') := by
  intro s s' result hdata hrun
  obtain ⟨value, m, hfirst, hrest⟩ := runs_bind.mp hrun
  obtain ⟨hadds, hlinked⟩ := h s m value hdata hfirst
  have hvalue := hnext value ⟨s, m, hdata, hfirst⟩
  obtain ⟨hadds', hlinked'⟩ := hvalue m s' result (hadds.data.trans hdata) hrest
  refine ⟨hadds.trans hadds', fun hend => ?_⟩
  exact runs_bind.mpr ⟨value, m, hlinked (hend.mono hadds'.grows), hlinked' hend⟩

theorem pure (value : α) : Links env routines owner data (Pure.pure value) (Pure.pure value) :=
  .of_runs fun hrun => by
    rw [← (runs_pure.mp hrun).2]
    exact .refl _

theorem modify {f : State → State} (h : ∀ s : State, s.Adds env owner (f s)) :
    Links env routines owner data (modify f) (modify f) :=
  .of_runs fun hrun => by
    rw [runs_modify.mp hrun]
    exact h _

theorem inFlow (flow : Flow) {first second : Lower α}
    (h : Links env routines owner data first second) :
    Links env routines owner data (Lower.inFlow flow first) (Lower.inFlow flow second) :=
  Links.bind (.modify fun _ => .of_eq rfl rfl rfl) fun _ _ => h.bind fun _ _ =>
    Links.bind (.modify fun _ => .of_eq rfl rfl rfl) fun _ _ => .pure _

theorem popCleanup : Links env routines owner data (modifyGet State.popCleanup)
    (modifyGet State.popCleanup) :=
  .of_runs fun hrun => by
    have hpop := runs_modifyGet.mp hrun
    cases hpop
    exact .of_eq rfl rfl rfl

theorem inCleanup (body : Tree) {first second : Lower α}
    (h : Links env routines owner data first second) :
    Links env routines owner data (Lower.inCleanup body first) (Lower.inCleanup body second) :=
  Links.bind (.modify fun _ => .of_eq rfl rfl rfl) fun _ _ => h.bind fun _ _ =>
    popCleanup.bind fun _ _ => .pure _

/-- Brackets that keep bridges, data and local routines. -/
theorem bracket {enter exit : State → State} {first second : Lower α}
    (h : Links env routines owner data first second)
    (henter : ∀ s : State, (enter s).data = s.data ∧ (enter s).bridges = s.bridges ∧
      (enter s).localRoutines = s.localRoutines)
    (hexit : ∀ s : State, (exit s).data = s.data ∧ (exit s).bridges = s.bridges ∧
      (exit s).localRoutines = s.localRoutines) :
    Links env routines owner data (Lower.bracket enter exit first)
      (Lower.bracket enter exit second) := by
  intro s s' value hdata hrun
  obtain ⟨m, hinner, rfl⟩ := runs_bracket.mp hrun
  obtain ⟨hentered, hbridges, hlocals⟩ := henter s
  obtain ⟨hleft, hbridges', hlocals'⟩ := hexit m
  obtain ⟨hadds, hlinked⟩ := h _ m value (hentered.trans hdata) hinner
  refine ⟨?_, fun hend => ?_⟩
  · exact ((State.Adds.of_eq hentered hbridges hlocals).trans hadds).trans (.of_eq hleft hbridges' hlocals')
  · rw [hbridges'] at hend
    exact runs_bracket.mpr ⟨m, hlinked hend, rfl⟩

end Links

/-- Linking is a relation between lowerings. -/
def linking (env : Env) (routines : List Routine) (owner : Ty) (data : Scopes) :
    Congruence env fun s => s.data = data where
  Rel := Links env routines owner data
  pure := .pure
  throw := by
    rintro _ fault _ rfl
    exact .of_runs fun hrun => absurd hrun runs_throw
  bind := .bind
  get := fun _ hnext s s' value hdata hrun => by
    obtain ⟨_, _, hget, hrest⟩ := runs_bind.mp hrun
    obtain ⟨rfl, rfl⟩ := runs_get.mp hget
    obtain ⟨hadds, hlinked⟩ := hnext s s hdata (.refl s) s s' value hdata hrest
    exact ⟨hadds, fun hend => runs_bind.mpr ⟨s, s, hget, hlinked hend⟩⟩
  nest := .reads
  tableLimit := .reads
  emit := fun _ _ => .of_runs fun hrun => by
    rw [runs_emit.mp hrun]
    exact .of_eq rfl rfl rfl
  newLabel := .of_runs fun hrun => by
    rw [(runs_newLabel.mp hrun).2]
    exact .of_eq rfl rfl rfl
  uniqueName := fun _ => .of_runs fun hrun => by
    rw [(runs_uniqueName.mp hrun).2]
    exact .of_eq rfl rfl rfl
  inFlow := .inFlow
  withScope := fun h => h.bracket (fun _ => ⟨rfl, rfl, rfl⟩) fun _ => ⟨rfl, rfl, rfl⟩
  withSlotScope := fun h => h.bracket (fun _ => ⟨rfl, rfl, rfl⟩) fun _ => ⟨rfl, rfl, rfl⟩

theorem exact_linking : (linking env routines owner data).Exact where
  around := id
  declare := fun _ _ => .of_runs fun hrun => by
    obtain ⟨_, _, rfl⟩ := runs_declare.mp hrun
    exact .of_eq rfl rfl rfl
  require := fun _ _ _ => .of_runs fun hrun => by
    rw [← (runs_require.mp hrun).2]
    exact .refl _
  reserve := fun _ => .of_runs fun hrun => by
    rw [runs_reserve.mp hrun]
    exact .of_eq rfl rfl rfl
  bridged := fun _ => .of_runs fun hrun => .bridged (runs_bridged.mp hrun)
  inCleanup := .inCleanup
  setAside := fun index {action action'} h s s' value => by
    let aside := fun action : List Cleanup → Lower Unit => Lower.bracket
      (fun state => { state with cleanups := s.cleanups.take index })
      (State.restoreCleanups (s.cleanups.drop index)) (action (s.cleanups.drop index))
    have haside : Links env routines owner data (aside action) (aside action') :=
      Links.bracket (h (s.cleanups.drop index)) (fun _ => ⟨rfl, rfl, rfl⟩) fun _ => ⟨rfl, rfl, rfl⟩
    exact haside s s' value

theorem Links.discard (ty : Ty) :
    Links env routines owner data (Lower.discard ty) (Lower.discard ty) := by
  refine .of_runs fun hrun => ?_
  rw [runs_discard.mp hrun, State.discard]
  split_ifs
  · exact .refl _
  · exact .of_eq rfl rfl rfl

end Lower

open Lower

section Linking

variable {env : Env} {routines : List Routine} {owner : Ty} {data : Scopes} {recur recur' : Recur}

theorem Recur.related_linking (h : ∀ tree, Links env routines owner data (recur tree) (recur' tree)) :
    Recur.Related (linking env routines owner data) Eq recur recur' := by
  refine .of_exact exact_linking (fun tree => ?_) fun tree s => ?_
  · exact (h tree).bracket (fun _ => ⟨rfl, rfl, rfl⟩) fun _ => ⟨rfl, rfl, rfl⟩
  · let discarding := fun action : Lower Unit =>
      Lower.bracket (State.withDepth 0) (State.withDepth s.expressionDepth) action
    have hdiscarding : Links env routines owner data (discarding (recur tree))
        (discarding (recur' tree)) :=
      (h tree).bracket (fun _ => ⟨rfl, rfl, rfl⟩) fun _ => ⟨rfl, rfl, rfl⟩
    exact hdiscarding s

namespace Lowering

/-- A bridge that is used is among those that there are in the end. -/
theorem links_access (h : ∀ tree, Links env routines owner data (recur tree) (recur' tree))
    (tree : Tree) :
    Links env routines owner data (access recur tree) (linkedAccess routines recur' tree) := by
  intro s s' value hdata hrun
  obtain ⟨use, m, hbridged, hrest⟩ := runs_bind.mp hrun
  have hadds : s.Adds env owner m := .bridged (runs_bridged.mp hbridged)
  have hdata' := hadds.data.trans hdata
  cases use with
  | none =>
    have hperform : Links env routines owner data (perform recur (directAccess tree))
        (perform recur' (directAccess tree)) :=
      rel_perform (Recur.related_linking h) Links.discard tree
    obtain ⟨hadds', hlinked⟩ := hperform m s' value hdata' hrest
    refine ⟨hadds.trans hadds', fun hend => ?_⟩
    exact runs_bind.mpr ⟨none, m, hbridged, hlinked hend⟩
  | some use =>
    obtain ⟨hadds', hlinked⟩ := h use m s' value hdata' hrest
    refine ⟨hadds.trans hadds', fun hend => ?_⟩
    have huse : use.linksTo routines = true := by
      obtain ⟨bridges, haccess, rfl⟩ := State.access?_of_bridged (runs_bridged.mp hbridged)
      exact (hend.mono hadds'.grows).linksTo haccess
    refine runs_bind.mpr ⟨some use, m, hbridged, ?_⟩
    dsimp only
    rw [if_pos huse]
    exact hlinked hend

/-- A routine whose body is linked is linked, and it comes with its family. -/
theorem routine_linked {decl : RoutineDecl} {lowered : Routine} (hrecur : recur.IsStandard)
    (h : ∀ tree, Links env routines decl.owner (State.initial env.nest shared decl.info).data
      (recur tree) (recur' tree))
    (hroutine : routine recur decl env shared = (.ok (lowered, locals), shared')) :
    Family env decl (lowered :: locals) ∧
      (shared.bridges.Sound env.nest → shared'.bridges.Sound env.nest) ∧
      shared.bridges.declarations <+: shared'.bridges.declarations ∧
      (shared'.bridges.Linked routines →
        routine recur' decl env shared = (.ok (lowered, locals), shared')) := by
  obtain ⟨t, output, hbody, houtput, hresult, rfl⟩ := routine_eq_ok.mp hroutine
  have hlinks := (Recur.related_linking h).routineBody exact_linking.toPlain decl rfl
  obtain ⟨hadds, hlinked⟩ := hlinks _ t () rfl hbody
  obtain ⟨added, hadded, hlocals⟩ := hadds.locals
  have houtputs : output.localRoutines = t.localRoutines := by
    obtain ⟨code, _, hcode⟩ := bind_eq_ok.mp houtput
    cases hcode
    rfl
  have hfamilies : locals = added := by
    rw [(Prod.mk.inj hresult).2]
    exact houtputs.trans hlocals
  subst hfamilies
  refine ⟨hadded.family hrecur hroutine, hadds.sound, hadds.grows, fun hend => ?_⟩
  exact routine_eq_ok.mpr ⟨t, output, hlinked hend, houtput, hresult, rfl⟩

theorem links_localRoutine {info : RoutineInfo} (hrecur : recur.IsStandard)
    (h : ∀ shared info tree, Links env routines info.owner (State.initial env.nest shared info).data
      (recur tree) (recur' tree)) (method : Method) :
    Links env routines info.owner (State.initial env.nest shared info).data
      (localRoutine recur method) (localRoutine recur' method) := by
  intro s s' _ hdata hrun
  have howner : s.currentType = info.owner := State.currentType_of_data hdata
  cases hdecl : RoutineDecl.ofMethod? s.currentType method with
  | none =>
    rw [(runs_localRoutine_bodiless hdecl).mp hrun]
    exact ⟨.refl s, fun _ => (runs_localRoutine_bodiless hdecl).mpr rfl⟩
  | some decl =>
    obtain ⟨lowered, nested, shared', hroutine, rfl⟩ := (runs_localRoutine hdecl).mp hrun
    obtain ⟨hfamily, hsound, hgrows, hlinked⟩ :=
      routine_linked hrecur (fun tree => h _ decl.info tree) hroutine
    refine ⟨⟨rfl, hsound, hgrows, lowered :: nested, ?_, rfl⟩, fun hend => ?_⟩
    · rw [howner] at hdecl
      exact .of_family hdecl hfamily
    · exact (runs_localRoutine hdecl).mpr ⟨lowered, nested, shared', hlinked hend, rfl⟩

/-- Linked lowering does what standard lowering does, in every routine. -/
theorem links_run (routines : List Routine) (depth : Nat) (shared : Shared) (info : RoutineInfo) (tree : Tree) :
    Links env routines info.owner (State.initial env.nest shared info).data
      (Handlers.standard.run depth tree) ((Handlers.linked routines).run depth tree) := by
  -- a local routine is lowered one level deeper, with its own data
  induction depth generalizing shared info tree with
  | zero => exact (linking env routines info.owner _).throw rfl
  | succ depth ih =>
    let R := linking env routines info.owner (State.initial env.nest shared info).data
    have hlocal (method : Method) : R.Rel (localRoutine (Handlers.standard.run depth) method)
        (localRoutine ((Handlers.linked routines).run depth) method) :=
      links_localRoutine (.inr ⟨depth, rfl⟩) ih method
    have hnode : R.Rel (Lowering.tree (Handlers.standard.run depth) tree)
        (Lowering.tree ((Handlers.linked routines).run depth) tree) :=
      (Recur.related_linking (ih shared info)).tree exact_linking (fun _ _ _ _ => Links.reads)
        Links.discard (ih shared info) fun method _ => hlocal method
    exact rel_accessing (R := R) (links_access (ih shared info)) hnode

theorem links_process (routines : List Routine) (shared : Shared) (info : RoutineInfo) (tree : Tree) :
    Links env routines info.owner (State.initial env.nest shared info).data
      (Handlers.standard.process tree) ((Handlers.linked routines).process tree) := by
  let R := linking env routines info.owner (State.initial env.nest shared info).data
  exact Congruence.process (R := R) exact_linking fun depth => links_run routines depth shared info tree

/-- A routine declared in a body adds its family and nothing else. -/
theorem family_of_localRoutine {method : Method} {decl : RoutineDecl} {s s' : State}
    (hdecl : RoutineDecl.ofMethod? s.currentType method = some decl)
    (h : Runs (Handlers.standard.process (.localRoutine method)) env s () s') :
    ∃ family, Family env decl family ∧ s'.localRoutines = s.localRoutines ++ family := by
  obtain ⟨_, _, hnest, hrest⟩ := runs_bind.mp h
  obtain ⟨rfl, rfl⟩ := runs_nest.mp hnest
  obtain ⟨_, _, hget, hrun⟩ := runs_bind.mp hrest
  obtain ⟨rfl, rfl⟩ := runs_get.mp hget
  cases hdepth : Handlers.depthBound env.nest s.cleanups (Tree.localRoutine method).size with
  | zero =>
    rw [hdepth] at hrun
    exact absurd hrun runs_throw
  | succ depth =>
    rw [hdepth] at hrun
    have hlocal : Runs (localRoutine (Handlers.standard.run depth) method) env s () s' := hrun
    obtain ⟨lowered, nested, shared, hroutine, rfl⟩ := (runs_localRoutine hdecl).mp hlocal
    obtain ⟨hfamily, _⟩ := routine_linked (.inr ⟨depth, rfl⟩)
      (links_run [] depth s.shared decl.info) hroutine
    exact ⟨lowered :: nested, hfamily, rfl⟩

end Lowering

end Linking

section OwnMembers

variable {env : Env} {owner : Ty} {s s' : State}

/-- Code that only reaches members of `owner`, of the forms that bridges have. -/
inductive Tree.Inward (owner : Ty) : Tree → Prop
  | self : Inward owner .self
  | readLocal {name : String} {ty : Ty} : Inward owner (.readLocal name ty)
  | readField {name : String} {ty : Ty} {receiver : Option Tree}
      (hreceiver : ∀ part ∈ receiver, Inward owner part) :
      Inward owner (.readField owner name ty receiver)
  | invoke {kind : InvokeKind} {method : Signature} {receiver : Option Tree} {args : List Tree}
      (hreceiver : ∀ part ∈ receiver, Inward owner part) (hargs : ∀ part ∈ args, Inward owner part) :
      Inward owner (.invoke kind owner method receiver args)
  | ret {value : Option Tree} (hvalue : ∀ part ∈ value, Inward owner part) :
      Inward owner (.ret value)
  | block {trees : List Tree} (htrees : ∀ part ∈ trees, Inward owner part) :
      Inward owner (.block trees)

inductive Job.Inward (owner : Ty) : Job → Prop
  | tree {tree : Tree} (htree : tree.Inward owner) : Inward owner (.tree tree)
  | value {tree : Tree} (htree : tree.Inward owner) : Inward owner (.value tree)
  | statement {tree : Tree} (htree : tree.Inward owner) : Inward owner (.statement tree)
  | cleanups {start : Nat} : Inward owner (.cleanups start)
  | param {param : Param} : Inward owner (.param param)
  | body {decl : RoutineDecl} (hbody : decl.body.Inward owner) : Inward owner (.body decl)
  | seq {jobs : List Job} (hjobs : ∀ job ∈ jobs, Inward owner job) : Inward owner (.seq jobs)

theorem Job.Inward.map {α : Type} {items : List α} {job : α → Job}
    (h : ∀ item ∈ items, (job item).Inward owner) : (Job.seq (items.map job)).Inward owner := by
  refine .seq fun other hmem => ?_
  obtain ⟨item, hitem, rfl⟩ := List.mem_map.mp hmem
  exact h item hitem

theorem Resolves.eq_of_contains {resolved : Ty} (h : Resolves env s owner resolved)
    (howner : env.nest.contains owner = true) : resolved = owner := by
  cases owner with
  | object name =>
    cases h
    rfl
  | prim _ | array _ | symbolic _ => cases howner

theorem Accesses.permitted {tree access : Tree} (h : Accesses env s tree access)
    (htree : tree.Inward owner) (howner : env.nest.contains owner = true) :
    env.nest.trespasses owner access = false := by
  have hcloses (modifiers : Modifiers) : env.nest.closes owner owner modifiers = false := by
    simp [Nest.closes]
  cases h with
  | readField hresolved hty =>
    cases htree
    rw [hresolved.eq_of_contains howner]
    simp [Nest.trespasses, hcloses]
  | invoke hresolved hmethod hadmits =>
    cases htree
    rw [hresolved.eq_of_contains howner]
    simp [Nest.trespasses, hcloses]
  | create hty hparams => cases htree

theorem Operates.inward {tree : Tree} {operation : Operation}
    (h : Operates env s tree operation) (htree : tree.Inward owner) :
    ∀ part ∈ operation.operands, part.Inward owner := by
  cases htree with
  | self | readLocal =>
    cases h with
    | access haccess hdirect => cases haccess
    | _ => exact List.forall_mem_nil _
  | readField hreceiver =>
    cases h with
    | access haccess hdirect =>
      cases haccess
      exact fun part hpart => hreceiver part (Option.mem_toList.mp hpart)
  | invoke hreceiver hargs =>
    cases h with
    | access haccess hdirect =>
      cases haccess
      intro part hpart
      rcases List.mem_append.mp hpart with hmem | hmem
      · exact hreceiver part (Option.mem_toList.mp hmem)
      · exact hargs part hmem
  | ret hvalue | block htrees =>
    cases h with
    | access haccess hdirect => cases haccess

/-- No bridges and no local routines are added. -/
structure State.Settles (s s' : State) : Prop where
  bridges : s'.bridges = s.bridges
  localRoutines : s'.localRoutines = s.localRoutines

namespace State.Settles

variable {m : State}

theorem refl (s : State) : s.Settles s := ⟨rfl, rfl⟩

theorem trans (h : s.Settles m) (h' : m.Settles s') : s.Settles s' :=
  ⟨h'.bridges.trans h.bridges, h'.localRoutines.trans h.localRoutines⟩

theorem emitsAll (h : s.Settles m) (calls : List Call) : s.Settles (m.emitsAll calls) := by
  induction calls generalizing m with
  | nil => exact h
  | cons call rest ih => exact ih (h.trans ⟨rfl, rfl⟩)

theorem reserveAll (h : s.Settles m) (names : List String) : s.Settles (m.reserveAll names) := by
  induction names generalizing m with
  | nil => exact h
  | cons name rest ih => exact ih (h.trans ⟨rfl, rfl⟩)

theorem discard (h : s.Settles m) (ty : Ty) : s.Settles (m.discard ty) := by
  unfold State.discard
  split_ifs
  · exact h
  · exact h.trans ⟨rfl, rfl⟩

end State.Settles

/-- The code is in a routine of `owner` and in no region with a cleanup. -/
structure State.Inside (owner : Ty) (s : State) : Prop where
  current : s.currentType = owner
  cleanups : s.cleanups = []

theorem State.Inside.of_keeps (h : s.Inside owner) (hkeeps : s.Keeps s') : s'.Inside owner where
  current := by
    rw [← h.current, State.currentType, hkeeps.data]
    rfl
  cleanups := hkeeps.cleanups.trans h.cleanups

/-- Code that only reaches members of its own type asks for no bridges. -/
theorem Lowers.settles {job : Job} (h : Lowers env job s s') (hjob : job.Inward owner)
    (howner : env.nest.contains owner = true) (hinside : s.Inside owner) : s.Settles s' := by
  induction h with
  | value htree ih =>
    cases hjob with
    | value hvalue =>
      obtain ⟨hbridges, hlocals⟩ := ih (.tree hvalue) ⟨hinside.current, hinside.cleanups⟩
      exact ⟨hbridges, hlocals⟩
  | statement htree ih =>
    cases hjob with
    | statement hstatement =>
      obtain ⟨hbridges, hlocals⟩ := ih (.tree hstatement) ⟨hinside.current, hinside.cleanups⟩
      exact ⟨hbridges, hlocals⟩
  | nil => exact .refl _
  | cons hfirst hrest ih ih' =>
    cases hjob with
    | seq hjobs =>
      obtain ⟨hhead, htail⟩ := List.forall_mem_cons.mp hjobs
      exact (ih hhead hinside).trans (ih' (.seq htail) (hinside.of_keeps hfirst.keeps))
  | operation hoperation hoperands ih =>
    obtain ⟨htree⟩ := hjob
    have hparts := hoperation.inward htree
    have hinner := ih (.map fun part hpart => .value (hparts part hpart))
      (hinside.of_keeps ((State.Keeps.refl _).emitsAll _))
    exact ((((State.Settles.refl _).emitsAll _).trans hinner).emitsAll _).discard _
  | bridged haccess hbridged huse ih =>
    -- the access is permitted, so there is no bridge to use
    obtain ⟨htree⟩ := hjob
    obtain ⟨bridges, hfound, _⟩ := State.access?_of_bridged hbridged
    rw [hinside.current, Bridges.access?_eq_none (haccess.permitted htree howner)] at hfound
    cases hfound
  | rewritten hrewrites hrewritten ih =>
    obtain ⟨htree⟩ := hjob
    cases htree <;> cases hrewrites
  | block htrees ih =>
    obtain ⟨htree⟩ := hjob
    cases htree with
    | block hparts => exact ih (.map fun part hpart => .tree (hparts part hpart)) hinside
  | leave hleaves hcopies ih =>
    obtain ⟨htree⟩ := hjob
    cases htree <;> cases hleaves
  | cleanups hcopies ih =>
    refine ih (.seq fun copy hcopy => ?_) hinside
    rw [hinside.cleanups] at hcopy
    simp [cleanupJobs] at hcopy
  | returnVoid hcopies ih => exact (ih .cleanups hinside).trans ⟨rfl, rfl⟩
  | returnValue hty hvalue hempty ih =>
    obtain ⟨htree⟩ := hjob
    cases htree with
    | ret hparts => exact (ih (.value (hparts _ rfl)) hinside).trans ⟨rfl, rfl⟩
  | returnSaved hty hvalue hnonempty hslot hcopies ih ih' =>
    exact absurd (hvalue.keeps.cleanups.trans hinside.cleanups) hnonempty
  | param hty hslot => exact ⟨rfl, rfl⟩
  | @body decl _ _ _ hparams hbody ih ih' =>
    cases hjob with
    | body hstatement =>
      have hreserved := hinside.of_keeps ((State.Keeps.refl _).reserveAll decl.body.variableNames)
      have hdeclared := ih (.map fun param _ => .param) hreserved
      have hinner := ih' (.statement hstatement) (hreserved.of_keeps hparams.keeps)
      exact ((((State.Settles.refl _).reserveAll _).trans hdeclared).trans hinner).emitsAll _
  | _ => obtain ⟨⟨⟩⟩ := hjob

end OwnMembers

namespace Bridge

/-- The routine of a bridge has the owner and the signature that the bridge is
called by, and its body only reaches members of the owner. -/
theorem routine?_of_fits {bridge : Bridge} (h : BridgeDecl.Fits bridge.member bridge.decl) :
    ∃ decl, bridge.routine? = some decl ∧ decl.owner = bridge.owner ∧
      decl.body.Inward bridge.owner ∧ decl.name = bridge.decl.signature.name ∧
      decl.descriptor = bridge.decl.signature.descriptor := by
  have hreceiver (owner : Ty) (isStatic : Bool) :
      ∀ part ∈ receiverTree? owner isStatic, part.Inward owner := by
    intro part hpart
    unfold receiverTree? at hpart
    split_ifs at hpart
    · cases hpart
    · cases hpart
      exact .readLocal
  have hargs (owner : Ty) (params : List Param) :
      ∀ part ∈ params.map readParam, part.Inward owner := by
    intro part hpart
    obtain ⟨param, _, rfl⟩ := List.mem_map.mp hpart
    exact .readLocal
  have hreturns {owner : Ty} (call : Tree) (hcall : call.Inward owner) (isVoid : Bool) :
      (if isVoid then Tree.block [call, .ret none] else .ret (some call)).Inward owner := by
    cases isVoid with
    | false => exact .ret (by simpa using hcall)
    | true =>
      have hret : (Tree.ret none).Inward owner := .ret (by simp)
      exact .block (List.forall_mem_cons.mpr ⟨hcall, List.forall_mem_singleton.mpr hret⟩)
  obtain ⟨member, requesters, decl⟩ := bridge
  cases h with
  | field accessor owner name ty isStatic =>
    refine ⟨_, rfl, rfl, hreturns _ ?_ false, rfl, rfl⟩
    exact .readField (hreceiver owner isStatic)
  | method accessor owner method declared isStatic =>
    refine ⟨_, rfl, rfl, hreturns _ ?_ _, rfl, rfl⟩
    exact .invoke (hreceiver owner isStatic) (hargs owner _)
  | constructor owner types declared marker =>
    refine ⟨_, rfl, rfl, hreturns _ (.invoke (fun part hpart => ?_) (hargs owner _)) true, rfl, rfl⟩
    cases hpart
    exact .self

end Bridge

namespace Bridges

variable {nest : Nest} {bridges : Bridges}

theorem linked_of_forall₂ {routines : List Routine}
    (h : List.Forall₂ (fun bridge (routine : Routine) =>
      routine.implements bridge.owner bridge.decl.signature = true) bridges.entries routines) :
    bridges.Linked routines := by
  intro member decl hmem
  obtain ⟨bridge, hbridge, heq⟩ := List.mem_map.mp hmem
  cases heq
  clear hmem
  generalize bridges.entries = entries at h hbridge
  induction h with
  | nil => cases hbridge
  | cons himplements _ ih =>
    rw [List.any_cons, Bool.or_eq_true]
    rcases List.mem_cons.mp hbridge with rfl | hrest
    · exact .inl himplements
    · exact .inr (ih hrest)

end Bridges

/-- Lowering the routine of a bridge asks for no bridge. -/
theorem Lowering.routine_bridge {env : Env} {bridge : Bridge} {decl : RoutineDecl}
    {lowered : Routine} (hfits : BridgeDecl.Fits bridge.member bridge.decl)
    (howner : env.nest.contains bridge.owner = true) (hdecl : bridge.routine? = some decl)
    (h : routine Handlers.standard.process decl env shared = (.ok (lowered, locals), shared')) :
    shared'.bridges = shared.bridges ∧ locals = [] ∧
      lowered.implements bridge.owner bridge.decl.signature = true := by
  obtain ⟨decl', hdecl', howned, hbody, hname, hdescriptor⟩ := Bridge.routine?_of_fits hfits
  obtain rfl : decl' = decl := Option.some.inj (hdecl'.symm.trans hdecl)
  have hderives : Derives env Handlers.standard.process := Derives.process env
  obtain ⟨t, output, hlowers, houtput, hresult, rfl⟩ := hderives.routine h
  have hinside : (State.initial env.nest shared decl'.info).Inside bridge.owner :=
    ⟨(State.currentType_of_data rfl).trans howned, rfl⟩
  obtain ⟨hbridges, hlocals⟩ := hlowers.settles (.body hbody) howner hinside
  obtain ⟨code, _, hcode⟩ := bind_eq_ok.mp houtput
  cases hcode
  cases hresult
  refine ⟨hbridges, hlocals, ?_⟩
  simp [Routine.implements, howned, hname, hdescriptor]

namespace Session

variable {session next : Session} {decls : List RoutineDecl} {routines : List Routine}

/-- The session with linked handlers. -/
def linkedTo (routines : List Routine) (session : Session) : Session :=
  { session with handlers := .linked routines }

theorem lowerAll_cons {decl : RoutineDecl} : session.lowerAll (decl :: decls) = .ok (routines, next) ↔
    ∃ routine locals shared later,
      Lowering.routine session.handlers.process decl session.env session.shared =
        (.ok (routine, locals), shared) ∧
      { session with shared := shared, localRoutines := [] }.lowerAll decls = .ok (later, next) ∧
      routines = routine :: (session.localRoutines ++ locals) ++ later := by
  rcases hroutine : Lowering.routine session.handlers.process decl session.env session.shared with
    ⟨fault | ⟨routine, locals⟩, shared⟩
  · simp [lowerAll, lowerRoutine, hroutine, bind_eq_ok]
  · simp only [lowerAll, lowerRoutine, hroutine, takeLocalRoutines, bind_eq_ok]
    constructor
    · rintro ⟨_, hresult, ⟨later, done⟩, hrest, hend⟩
      cases hresult
      cases hend
      exact ⟨_, _, _, later, rfl, hrest, rfl⟩
    · rintro ⟨_, _, _, later, hresult, hrest, rfl⟩
      cases hresult
      exact ⟨_, rfl, ⟨later, next⟩, hrest, rfl⟩

/-- Standard handlers, and no local routines waiting. -/
structure Ready (session : Session) : Prop where
  handlers : session.handlers = .standard
  sound : session.shared.bridges.Sound session.env.nest
  localRoutines : session.localRoutines = []

/-- What lowering routines in order gives: their families, and the same with
linked handlers if all bridges there are in the end are implemented. -/
structure Gives (session : Session) (decls : List RoutineDecl) (routines : List Routine)
    (next : Session) : Prop where
  ready : next.Ready
  env : next.env = session.env
  grows : session.shared.bridges.declarations <+: next.shared.bridges.declarations
  families : ∃ families, List.Forall₂ (Family session.env) decls families ∧
    routines = families.flatten
  linked : ∀ implemented, next.shared.bridges.Linked implemented →
    (session.linkedTo implemented).lowerAll decls = .ok (routines, next.linkedTo implemented)

theorem Ready.lowerAll (h : session.Ready) (hlower : session.lowerAll decls = .ok (routines, next)) :
    session.Gives decls routines next := by
  induction decls generalizing session routines with
  | nil =>
    cases hlower
    exact ⟨h, rfl, List.prefix_rfl, ⟨[], .nil, rfl⟩, fun _ _ => rfl⟩
  | cons decl rest ih =>
    obtain ⟨routine, locals, shared, later, hroutine, hrest, rfl⟩ := lowerAll_cons.mp hlower
    have hstandard := hroutine
    rw [h.handlers] at hstandard
    have hfirst (implemented : List Routine) := Lowering.routine_linked (.inl rfl)
      (Lowering.links_process implemented session.shared decl.info) hstandard
    obtain ⟨hfamily, hsound, hgrows, _⟩ := hfirst []
    have hready : { session with shared := shared, localRoutines := [] }.Ready :=
      ⟨h.handlers, hsound h.sound, rfl⟩
    have hnext := ih hready hrest
    obtain ⟨families, hfamilies, rfl⟩ := hnext.families
    refine ⟨hnext.ready, hnext.env, hgrows.trans hnext.grows, ?_, fun implemented hend => ?_⟩
    · refine ⟨(routine :: locals) :: families, .cons hfamily hfamilies, ?_⟩
      rw [h.localRoutines]
      rfl
    · have hlinked := (hfirst implemented).2.2.2 (hend.mono hnext.grows)
      exact lowerAll_cons.mpr ⟨_, _, _, _, hlinked, hnext.linked implemented hend, rfl⟩

/-- Lowering bridges asks for no further bridges and gives one routine for each. -/
theorem Ready.lowerAll_bridges (h : session.Ready) {pending : List Bridge}
    (hpending : ∀ bridge ∈ pending, BridgeDecl.Fits bridge.member bridge.decl ∧
      session.env.nest.contains bridge.owner = true)
    (hlower : session.lowerAll (pending.filterMap Bridge.routine?) = .ok (routines, next)) :
    next.shared.bridges = session.shared.bridges ∧
      List.Forall₂ (fun bridge (routine : Routine) =>
        routine.implements bridge.owner bridge.decl.signature = true) pending routines := by
  induction pending generalizing session routines with
  | nil =>
    cases hlower
    exact ⟨rfl, .nil⟩
  | cons bridge rest ih =>
    obtain ⟨⟨hfits, howner⟩, hrest⟩ := List.forall_mem_cons.mp hpending
    obtain ⟨decl, hdecl, _⟩ := Bridge.routine?_of_fits hfits
    rw [List.filterMap_cons_some hdecl] at hlower
    obtain ⟨routine, locals, shared, later, hroutine, hlater, rfl⟩ := lowerAll_cons.mp hlower
    rw [h.handlers] at hroutine
    obtain ⟨hbridges, rfl, himplements⟩ := Lowering.routine_bridge hfits howner hdecl hroutine
    have hready : { session with shared := shared, localRoutines := [] }.Ready :=
      ⟨h.handlers, hbridges ▸ h.sound, rfl⟩
    obtain ⟨hbridges', himplement⟩ := ih hready hrest hlater
    refine ⟨hbridges'.trans hbridges, ?_⟩
    rw [h.localRoutines]
    exact .cons himplements himplement

/-- If lowering the bridges there are asks for no more, one round is enough. -/
theorem lowerBridges_of_lowerAll
    (hlower : session.lowerAll (session.shared.bridges.entries.filterMap Bridge.routine?) =
      .ok (routines, next))
    (hbridges : next.shared.bridges = session.shared.bridges) (rounds : Nat) :
    session.lowerBridges 0 (rounds + 1) = .ok (routines, next) := by
  have hround : next.lowerBridges session.shared.bridges.entries.length rounds = .ok ([], next) := by
    cases rounds with
    | zero => rfl
    | succ rounds =>
      unfold lowerBridges
      rw [hbridges, Bridges.drop, List.drop_length]
  unfold lowerBridges
  rw [Bridges.drop, List.drop_zero]
  cases hentries : session.shared.bridges.entries with
  | nil =>
    rw [hentries] at hlower
    exact hlower
  | cons bridge rest =>
    rw [hentries] at hlower hround
    refine bind_eq_ok.mpr ⟨(routines, next), hlower, bind_eq_ok.mpr ⟨([], next), ?_, ?_⟩⟩
    · rw [Nat.zero_add]
      exact hround
    · dsimp only
      rw [List.append_nil]
      rfl

theorem exists_lowerAll_of_lowerBridges {rounds : Nat}
    (h : session.lowerBridges 0 (rounds + 1) = .ok (routines, next)) : ∃ first after,
      session.lowerAll (session.shared.bridges.entries.filterMap Bridge.routine?) =
        .ok (first, after) := by
  unfold lowerBridges at h
  rw [Bridges.drop, List.drop_zero] at h
  cases hentries : session.shared.bridges.entries with
  | nil => exact ⟨[], session, rfl⟩
  | cons bridge rest =>
    rw [hentries] at h
    obtain ⟨⟨first, after⟩, hfirst, _⟩ := bind_eq_ok.mp h
    exact ⟨first, after, hfirst⟩

/-- A nest is lowered to its routines and bridges. First come the declared
routines in order, each followed by the routines declared in its body, and then
one routine for each bridge, with its owner, name and descriptor. The bridges are
those that the declared routines ask for: lowering a bridge asks for no other one,
and one round of bridges does all of them. Every use of a bridge runs one of the
routines of bridges, so linked lowering gives the same. -/
theorem lowerNest_routines {nest : Nest} {options : Options} {lowered : LoweredNest}
    (h : (Session.new nest options .standard).lowerNest = .ok lowered) :
    ∃ families bridged middle done,
      lowered.routines = families.flatten ++ bridged ∧
      List.Forall₂ (Family ⟨nest, options⟩) (nest.members.flatMap TypeDecl.routines) families ∧
      List.Forall₂ (fun bridge (routine : Routine) =>
        routine.implements bridge.owner bridge.decl.signature = true) lowered.bridges bridged ∧
      (Session.new nest options .standard).lowerAll (nest.members.flatMap TypeDecl.routines) =
        .ok (families.flatten, middle) ∧
      middle.shared.bridges.entries = lowered.bridges ∧
      (∀ rounds, middle.lowerBridges 0 (rounds + 1) = .ok (bridged, done)) ∧
      done.shared.bridges = middle.shared.bridges ∧
      (∀ method decl (s s' : State), RoutineDecl.ofMethod? s.currentType method = some decl →
        Lower.Runs (Handlers.standard.process (.localRoutine method)) ⟨nest, options⟩ s () s' →
          ∃ family, Family ⟨nest, options⟩ decl family ∧
            s'.localRoutines = s.localRoutines ++ family) ∧
      (∀ bridge ∈ lowered.bridges, ∀ decl ∈ bridge.routine?, ∀ shared result shared',
        Lowering.routine Handlers.standard.process decl ⟨nest, options⟩ shared =
          (.ok result, shared') → shared'.bridges = shared.bridges) ∧
      (Session.new nest options (.linked bridged)).lowerNest = .ok lowered := by
  have hstart : (Session.new nest options .standard).Ready :=
    ⟨rfl, .empty nest, rfl⟩
  unfold lowerNest at h
  obtain ⟨⟨declared, middle⟩, hdeclared, h⟩ := bind_eq_ok.mp h
  obtain ⟨⟨bridged, done⟩, hbridged, h⟩ := bind_eq_ok.mp h
  cases h
  have hmiddle := hstart.lowerAll hdeclared
  obtain ⟨families, hfamilies, rfl⟩ := hmiddle.families
  have hpending : ∀ bridge ∈ middle.shared.bridges.entries,
      BridgeDecl.Fits bridge.member bridge.decl ∧ middle.env.nest.contains bridge.owner = true :=
    fun bridge hmem => hmiddle.ready.sound.fits_contains hmem
  obtain ⟨routines, after, hround⟩ := exists_lowerAll_of_lowerBridges hbridged
  obtain ⟨hbridges, himplement⟩ := hmiddle.ready.lowerAll_bridges hpending hround
  have hrounds := lowerBridges_of_lowerAll hround hbridges
  obtain ⟨rfl, rfl⟩ := Prod.mk.inj (Except.ok.inj ((hrounds _).symm.trans hbridged))
  have hafter := hmiddle.ready.lowerAll hround
  have hlinked : after.shared.bridges.Linked routines := by
    rw [hbridges]
    exact Bridges.linked_of_forall₂ himplement
  have hdeclared' := hmiddle.linked routines (hlinked.mono hafter.grows)
  have hround' := hafter.linked routines hlinked
  refine ⟨families, routines, middle, after, rfl, hfamilies, ?_, hdeclared, ?_, hrounds, hbridges,
    fun method decl s s' hdecl hrun => Lowering.family_of_localRoutine hdecl hrun, fun bridge hmem decl hdecl shared result shared' hroutine => ?_, ?_⟩
  · rw [hbridges]
    exact himplement
  · rw [hbridges]
  · rw [hbridges] at hmem
    obtain ⟨hfits, howner⟩ := hpending bridge hmem
    rw [hmiddle.env] at howner
    exact (Lowering.routine_bridge hfits howner hdecl hroutine).1
  · have hrounds' := lowerBridges_of_lowerAll hround' hbridges nest.memberCount
    unfold lowerNest
    exact bind_eq_ok.mpr ⟨_, hdeclared', bind_eq_ok.mpr ⟨_, hrounds', rfl⟩⟩

/-- A routine with a local routine, in which there is another one, and with two
accesses that need bridges. -/
theorem lowerNest_routines_nested : ∃ nest lowered,
    (Session.new nest {} .standard).lowerNest = .ok lowered ∧
      lowered.routines.map Routine.name =
        ["peek", "step", "rest", "<init>", "accessor$0", "<init>"] ∧
      lowered.bridges.length = 2 ∧ ∃ families bridged,
        lowered.routines = families.flatten ++ bridged ∧
        List.Forall₂ (Family ⟨nest, {}⟩) (nest.members.flatMap TypeDecl.routines) families ∧
        (Session.new nest {} (.linked bridged)).lowerNest = .ok lowered := by
  refine ⟨⟨[{ TypeDecl.bare (.object "Outer") .classType .publicFlag with
      methods := [⟨"peek", .staticFlag, Ty.int, [], some (.block
        [.localRoutine ⟨"step", .staticFlag, Ty.void, [], some (.localRoutine
            ⟨"rest", .staticFlag, Ty.void, [], some .nothing⟩)⟩,
          .ret (some (.readField (.object "Inner") "hidden" Ty.int
            (some (.create (.object "Inner") [] []))))])⟩] },
    { TypeDecl.bare (.object "Inner") .classType .publicFlag with
      outer := some (.object "Outer")
      fields := [⟨"hidden", Ty.int, .privateFlag⟩]
      constructors := [⟨.privateFlag, [], some .nothing⟩] }], Nest.libraryTypes⟩, ?_⟩
  generalize hresult : (Session.new _ _ .standard).lowerNest = result
  cases result with
  | error fault =>
    have hfails : _ = false := congrArg Except.isOk hresult
    exact absurd hfails (by decide +kernel)
  | ok lowered =>
    have hshape : _ = (lowered.routines.map Routine.name, lowered.bridges.length) :=
      congrArg (fun result : Except Fault LoweredNest => result.toOption.elim ([], 0)
        fun lowered => (lowered.routines.map Routine.name, lowered.bridges.length)) hresult
    have hnames := Prod.mk.inj (hshape.symm.trans (by decide +kernel :
      _ = (["peek", "step", "rest", "<init>", "accessor$0", "<init>"], 2)))
    obtain ⟨families, bridged, _, _, hroutines, hfamilies, _, _, _, _, _, _, _, hlinked⟩ :=
      lowerNest_routines hresult
    exact ⟨lowered, rfl, hnames.1, hnames.2, families, bridged, hroutines, hfamilies, hlinked⟩

end Session

end StackLowering
