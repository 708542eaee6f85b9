import StackLowering.Proofs.AliasedHandlers
import StackLowering.Proofs.HiddenNames
import StackLowering.Proofs.StatementPosition
/-!
Whole routines with their roles written out. A routine may name a type by its role
for the owner, in its signature and anywhere in its body. Where the roles belong to
object types, the code does not depend on that: writing the types out gives the
same code, frame and constants.
-/

namespace StackLowering

namespace Ty

/-- The role by which a type, or the innermost element of an array type, is named. -/
def role? : Ty → Option Role
  | symbolic role => some role
  | array element => element.role?
  | _ => none

end Ty

namespace Nest

variable {nest : Nest} {owner ty : Ty}

/-- If the type is named by a role and some type has that role for `owner`, then this
is an object type. -/
def NamesObject (nest : Nest) (owner ty : Ty) : Prop :=
  ∀ role target, ty.role? = some role → nest.resolveRole owner role = .ok target →
    ∃ name, target = .object name

theorem AliasesObjects.namesObject (h : nest.AliasesObjects owner) (ty : Ty) :
    nest.NamesObject owner ty :=
  fun role target _ => h role target

theorem resolved_array (nest : Nest) (owner element : Ty) :
    nest.resolved owner (.array element) = .array (nest.resolved owner element) := by
  rw [resolved, resolve, resolved]
  cases nest.resolve owner element <;> rfl

theorem NamesObject.resolved_eq (h : nest.NamesObject owner ty) :
    nest.resolved owner ty = nest.unaliased owner ty := by
  induction ty with
  | prim | object => rfl
  | array element ih => rw [resolved_array, ih h, unaliased]
  | symbolic role =>
    rw [resolved, resolve, unaliased]
    cases hrole : nest.resolveRole owner role with
    | error fault => rfl
    | ok target =>
      obtain ⟨name, rfl⟩ := h role target rfl hrole
      rfl

end Nest

namespace RoutineDecl

variable {f g : Ty → Ty} {p : Ty → Prop} {decl : RoutineDecl}

/-- Replace the types in the signature and the body. Routines declared in the body
keep theirs. -/
def mapTypes (f : Ty → Ty) (decl : RoutineDecl) : RoutineDecl :=
  { decl with
    params := decl.params.map fun param => { param with ty := f param.ty }
    result := f decl.result
    body := decl.body.mapTypes f }

/-- All types in the signature and the body satisfy `p`. -/
structure ForTypes (p : Ty → Prop) (decl : RoutineDecl) : Prop where
  params : ∀ param ∈ decl.params, p param.ty
  result : p decl.result
  body : decl.body.Everywhere fun part => ∀ ty ∈ part.ownTypes, p ty

theorem mapTypes_congr (h : decl.ForTypes fun ty => f ty = g ty) :
    decl.mapTypes f = decl.mapTypes g := by
  have hparams : decl.params.map (fun param => { param with ty := f param.ty }) =
      decl.params.map fun param => { param with ty := g param.ty } := by
    apply List.map_congr_left
    intro param hparam
    rw [h.params param hparam]
  rw [mapTypes, mapTypes, hparams, h.result, Tree.mapTypes_congr h.body]

theorem ForTypes.of_forall (h : ∀ ty, p ty) (decl : RoutineDecl) : decl.ForTypes p where
  params := fun param _ => h param.ty
  result := h decl.result
  body := .of_forall (fun _ ty _ => h ty) decl.body

theorem ForTypes.mono {q : Ty → Prop} (h : decl.ForTypes p) (hpq : ∀ ty, p ty → q ty) :
    decl.ForTypes q where
  params := fun param hparam => hpq _ (h.params param hparam)
  result := hpq _ h.result
  body := h.body.mono fun _ hpart ty hty => hpq ty (hpart ty hty)

end RoutineDecl

namespace Setting

variable {S : Setting} {s t : State} {tree : Tree}

theorem clear_of_reserved (h : tree.variableNames ⊆ S.reserved) : S.Clear tree := by
  induction tree using Tree.induction_children with
  | _ tree ih =>
    rw [Tree.variableNames_eq] at h
    apply clear_iff.mpr
    constructor
    · intro name hname
      have hreserved : name ∈ S.reserved := h (List.mem_append_left _ hname)
      simp [visible, hreserved]
    · intro part hpart
      apply ih part hpart
      intro name hname
      exact h (List.mem_append_right _ (Tree.mem_namesOf hpart hname))

/-- The states before the body. They differ only in what they say about the routine,
and there only in how its result type is named. -/
structure Starts (S : Setting) (s t : State) : Prop where
  same : { s with data := t.data } = t
  sound : S.Sound s
  owner : t.currentType = S.owner
  result : s.result.prim? = t.result.prim?

namespace Starts

theorem alike (h : S.Starts s t) : S.Alike s t := by
  obtain ⟨data, rfl⟩ : ∃ data, t = { s with data := data } := ⟨t.data, h.same.symm⟩
  exact
    { assembler := rfl
      bridges := rfl
      flows := rfl
      slots := .refl _
      cleanups := rfl
      depth := rfl
      routines := rfl
      result := h.result
      first := h.sound
      second := { h.sound with owner := h.owner } }

theorem slots (h : S.Starts s t) : s.slots = t.slots := by
  rw [← h.same]

theorem declare (h : S.Starts s t) {name : String} {ty : Ty} {slot : UInt16} {slots : Slots}
    (hslot : s.slots.declare name ty = (.ok slot, slots)) :
    S.Starts { s with slots := slots } { t with slots := slots } where
  same := congrArg (fun state : State => { state with slots := slots }) h.same
  sound :=
    { h.sound with
      named := (Slots.Step.declare hslot).named h.sound.named
      reserved := fun name hname => Slots.isUsed_declare hslot (h.sound.reserved name hname) }
  owner := h.owner
  result := h.result

end Starts

/-- The parameters get the same slots. -/
theorem mirrors_declareParam (param : Param) :
    Lower.Mirrors S.env S.Starts Eq (Lowering.declareParam param)
      (Lowering.declareParam { param with ty := S.plainTy param.ty }) := by
  have hresolve : Lower.Mirrors S.env S.Starts Eq (Lower.resolve param.ty)
      (Lower.resolve (S.plainTy param.ty)) := by
    apply Lower.Mirrors.resolving fun _ _ hst => ⟨hst.sound.owner, hst.owner⟩
    exact (Nest.resolve_unaliased param.ty).symm
  apply hresolve.andThen
  intro ty
  have hdeclare : Lower.Mirrors S.env S.Starts Eq (Lower.declare param.name ty)
      (Lower.declare param.name ty) := by
    intro s t hst
    rw [declare_apply, declare_apply, ← hst.slots]
    cases hslot : s.slots.declare param.name ty with
    | mk outcome slots =>
      cases outcome with
      | ok slot => exact .ok ⟨rfl, hst.declare hslot⟩
      | error fault => exact .error
  exact hdeclare.seq (.pure rfl)

theorem Alike.finish (h : S.Alike s t) :
    Agree (fun output output' => output.code = output'.code ∧
        output.frameSize = output'.frameSize ∧ output.localRoutines = output'.localRoutines)
      s.finish t.finish := by
  rw [State.finish, State.finish, h.assembler]
  apply (Agree.of_eq rfl).bind
  rintro code _ rfl
  exact .ok ⟨rfl, h.slots.frameSize, h.routines⟩

theorem Alike.shared (h : S.Alike s t) : s.shared = t.shared := by
  rw [State.shared, State.shared, h.assembler, h.bridges]

/-- The setting of the body of a routine. -/
def ofRoutine (env : Env) (decl : RoutineDecl) : Setting :=
  ⟨env, decl.owner, decl.body.variableNames⟩

end Setting

namespace State

theorem reserveAll_eq (names : List String) (s : State) :
    s.reserveAll names = { s with slots := names.foldl Slots.reserve s.slots } := by
  induction names generalizing s with
  | nil => rfl
  | cons name rest ih => exact ih _

theorem data_reserveAll (names : List String) (s : State) : (s.reserveAll names).data = s.data := by
  rw [reserveAll_eq]

theorem result_of_data {s : State} {nest : Nest} {shared : Shared} {info : RoutineInfo}
    (h : s.data = (initial nest shared info).data) : s.result = info.result := by
  rw [result, routine?_of_data h]

end State

namespace Lowering

open Setting

variable {env : Env} {recur : Recur} {decl : RoutineDecl} {shared : Shared}

theorem forM_reserve_apply (names : List String) (env : Env) (s : State) :
    (names.forM Lower.reserve) env s = (.ok (), s.reserveAll names) := by
  induction names generalizing s with
  | nil => rfl
  | cons name rest ih => exact ih _

theorem starts_initial : (ofRoutine env decl).Starts
    ((State.initial env.nest shared decl.info).reserveAll decl.body.variableNames)
    ((State.initial env.nest shared (decl.mapTypes (ofRoutine env decl).plainTy).info).reserveAll
      decl.body.variableNames) := by
  have hempty : (State.initial env.nest shared decl.info).slots.Reserved [] := .empty
  have hreserved := hempty.reserveAll decl.body.variableNames
  have hdata (info : RoutineInfo) := State.data_reserveAll decl.body.variableNames
    (State.initial env.nest shared info)
  constructor
  · rw [State.reserveAll_eq, State.reserveAll_eq]
    rfl
  · constructor
    · exact State.currentType_of_data (hdata _)
    · exact hreserved.named
    · intro name hname
      exact hreserved.used name (List.mem_append_left _ (List.mem_reverse.mpr hname))
    · rw [State.reserveAll_eq]
      exact List.forall_mem_nil _
  · exact State.currentType_of_data (hdata _)
  · rw [State.result_of_data (hdata _), State.result_of_data (hdata _)]
    exact (prim?_plainTy decl.result).symm

theorem routineBody_apply (s : State) : routineBody recur decl env s =
    (do decl.params.forM declareParam
        recur.statement decl.body
        if decl.result.isVoid && !decl.body.endsInTransfer then Lower.op .returnVoid : Lower Unit)
      env (s.reserveAll decl.body.variableNames) := by
  rw [routineBody, Lower.bind_apply, forM_reserve_apply]

/-- The two bodies fail together, or end in states that are alike. -/
theorem agree_routineBody (hrecur : (ofRoutine env decl).Faithful recur) (shared : Shared) :
    let first := routineBody recur decl env (.initial env.nest shared decl.info)
    let plain := decl.mapTypes (ofRoutine env decl).plainTy
    let second := routineBody recur plain env (.initial env.nest shared plain.info)
    Agree (fun value value' => value = value' ∧ (ofRoutine env decl).Alike first.2 second.2)
      first.1 second.1 := by
  intro first plain second
  have hparams : Lower.Mirrors env (ofRoutine env decl).Starts Eq
      (decl.params.forM declareParam) (plain.params.forM declareParam) := by
    apply Lower.Mirrors.forM (List.forall₂_map_right_iff.mpr (List.forall₂_same.mpr fun _ _ => rfl))
    rintro param _ rfl
    exact mirrors_declareParam param
  have hrest : (ofRoutine env decl).Mirrors Eq
      (do recur.statement decl.body
          if decl.result.isVoid && !decl.body.endsInTransfer then Lower.op .returnVoid)
      (do recur.statement plain.body
          if plain.result.isVoid && !plain.body.endsInTransfer then Lower.op .returnVoid) := by
    have hclear : (ofRoutine env decl).Clear decl.body := clear_of_reserved (List.Subset.refl _)
    have hvoid : plain.result.isVoid = decl.result.isVoid :=
      Ty.isVoid_congr (prim?_plainTy decl.result)
    have htransfer : plain.body.endsInTransfer = decl.body.endsInTransfer :=
      Tree.endsInTransfer_mapTypes decl.body
    rw [hvoid, htransfer]
    apply (hrecur.related.statement hclear.same).seq
    split_ifs
    · exact mirrors_op _
    · exact .pure rfl
  have hnames : plain.body.variableNames = decl.body.variableNames :=
    Tree.variableNames_mapTypes decl.body
  have hfirst : first = _ := routineBody_apply _
  have hsecond : second = _ := routineBody_apply _
  rw [hfirst, hsecond, hnames]
  exact hparams.bind_of_imp (fun _ _ => Starts.alike) (fun _ _ _ => hrest) starts_initial

/-- The two routines fail together, or give the same output. -/
theorem agree_routine (hrecur : (ofRoutine env decl).Faithful recur) (shared : Shared) :
    let first := routine recur decl env shared
    let second := routine recur (decl.mapTypes (ofRoutine env decl).plainTy) env shared
    Agree (fun result result' => result.1.code = result'.1.code ∧
        result.1.frameSize = result'.1.frameSize ∧ result.2 = result'.2 ∧ first.2 = second.2)
      first.1 second.1 := by
  have hbody := agree_routineBody hrecur shared
  dsimp only [routine] at hbody ⊢
  generalize routineBody recur decl env (.initial env.nest shared decl.info) = result at hbody ⊢
  generalize routineBody recur (decl.mapTypes (ofRoutine env decl).plainTy) env
    (.initial env.nest shared (decl.mapTypes (ofRoutine env decl).plainTy).info) = result'
    at hbody ⊢
  obtain ⟨outcome, m⟩ := result
  obtain ⟨outcome', m'⟩ := result'
  cases hbody with
  | error => exact .error
  | ok hends =>
    have halike : (ofRoutine env decl).Alike m m' := hends.2
    apply halike.finish.bind
    rintro output output' ⟨hcode, hsize, hroutines⟩
    exact .ok ⟨hcode, hsize, hroutines, halike.shared⟩

/-- Naming types by their roles leaves no trace in the code. If the roles that a
routine mentions belong to object types, then the routine with these types written
out is lowered exactly when the routine itself is. It has the same instructions,
exception table and frames, and as many local slots. The same routines are declared
in it, and it leaves the same constants and bridges. -/
theorem routine_resolved_agree {env : Env} {decl : RoutineDecl}
    (h : decl.ForTypes (env.nest.NamesObject decl.owner)) (shared : Shared) :
    let first := routine Handlers.standard.process decl env shared
    let second := routine Handlers.standard.process
      (decl.mapTypes (env.nest.resolved decl.owner)) env shared
    Agree (fun result result' => result.1.code = result'.1.code ∧
        result.1.frameSize = result'.1.frameSize ∧ result.2 = result'.2 ∧ first.2 = second.2)
      first.1 second.1 := by
  have hplain : decl.mapTypes (env.nest.resolved decl.owner) =
      decl.mapTypes (ofRoutine env decl).plainTy := by
    apply RoutineDecl.mapTypes_congr
    exact h.mono fun _ hty => hty.resolved_eq
  rw [hplain]
  exact agree_routine faithful_process shared

section Example

/-- A class with a parent and an interface. -/
def squareNest : Nest :=
  ⟨[{ TypeDecl.bare (.object "Square") .classType .publicFlag with
      superclass := some (.object "Figure")
      interfaces := [.object "Shape"] }], Nest.libraryTypes⟩

/-- A routine of that class which names every type by a role. It returns while a
cleanup is pending, so its result is kept in a hidden variable. -/
def narrowShape : RoutineDecl where
  owner := .object "Square"
  name := "narrow"
  params := [⟨"shape", .symbolic (.interface 0)⟩]
  result := .symbolic .self
  isStatic := false
  body := .guarded (.ret (some (.cast (.symbolic .self)
      (.readLocal "shape" (.symbolic (.interface 0))))))
    [⟨.symbolic .parent, "caught", .ret (some .self)⟩]
    (some (.declareLocal "squares" (.array (.symbolic .self))
      (some (.newArray (.symbolic .self) (.literal (.int 1))))))

theorem aliasesObjects_squareNest : squareNest.AliasesObjects narrowShape.owner := by
  intro role target hrole
  cases role with
  | self =>
    cases hrole
    exact ⟨"Square", rfl⟩
  | parent =>
    cases hrole
    exact ⟨"Figure", rfl⟩
  | interface index =>
    cases index with
    | zero =>
      cases hrole
      exact ⟨"Shape", rfl⟩
    | succ index => cases hrole

theorem routine_resolved_agree_narrowShape :
    narrowShape.ForTypes (squareNest.NamesObject narrowShape.owner) ∧
    (narrowShape.mapTypes (squareNest.resolved narrowShape.owner)).result = .object "Square" ∧
    let first := routine Handlers.standard.process narrowShape ⟨squareNest, {}⟩ .empty
    let second := routine Handlers.standard.process
      (narrowShape.mapTypes (squareNest.resolved narrowShape.owner)) ⟨squareNest, {}⟩ .empty
    first.1.isOk = true ∧
    Agree (fun result result' => result.1.code = result'.1.code ∧
        result.1.frameSize = result'.1.frameSize ∧ result.2 = result'.2 ∧ first.2 = second.2)
      first.1 second.1 := by
  have htypes : narrowShape.ForTypes (squareNest.NamesObject narrowShape.owner) :=
    .of_forall aliasesObjects_squareNest.namesObject narrowShape
  constructor
  · exact htypes
  · constructor
    · rfl
    · constructor
      · decide +kernel
      · exact @routine_resolved_agree ⟨squareNest, {}⟩ narrowShape htypes .empty

end Example

end Lowering

end StackLowering
