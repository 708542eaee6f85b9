import StackLowering.Proofs.BridgeRegistry
/-!
Accesses are rewritten once. The use of a bridge takes the place of an access and
is lowered like any other tree, so it could be rewritten again. It is not, so long
as the types of the nest leave the names of bridges alone: no method is called
like an accessor, and no constructor ends with an undeclared type that is named
like a marker. Markers are chosen apart from the declared types; accessors are
only numbered. A private method with the name of the next accessor may be taken
for its own bridge, and a call of it is rewritten for ever.
-/

namespace StackLowering

/-- The type declares the member. -/
def Nest.declares (nest : Nest) : Member → Bool
  | .field owner name => (nest.field? owner name).isSome
  | .method owner signature => (nest.method? owner signature).isSome
  | .constructor owner params => (nest.constructor? owner params).isSome

/-- A member that could be a bridge: a method with the name of an accessor, or a
constructor that takes a marker last, which is not a declared type. -/
inductive Member.Reserved (nest : Nest) : Member → Prop
  | accessor {owner : Ty} {signature : Signature} {number : Nat}
      (hname : signature.name = "accessor$" ++ toString number) :
      Reserved nest (.method owner signature)
  | marked {owner base : Ty} {params : List Ty} {number : Nat}
      (hlast : params.getLast? = some (Bridges.markerType base number))
      (hunknown : nest.get? (Bridges.markerType base number) = none) :
      Reserved nest (.constructor owner params)

/-- The types of the nest leave the names of bridges alone. -/
def Nest.LeavesNames (nest : Nest) : Prop :=
  ∀ member, member.Reserved nest → nest.declares member = false

/-- The member that a bridge adds to its owner. -/
def BridgeDecl.added (owner : Ty) : BridgeDecl → Member
  | .method decl => .method owner decl.signature
  | .constructor decl => .constructor owner decl.paramTypes

/-- An access to a member that is not declared needs no bridge. -/
theorem Nest.trespasses_of_not_declares {nest : Nest} {use : Tree} {member : Member}
    (hmember : use.member? = some member) (h : nest.declares member = false) (requester : Ty) :
    nest.trespasses requester use = false := by
  have hnone {α : Type} {found : Option α} (hfound : found.isSome = false) (closed : α → Bool) :
      found.any closed = false := by
    rw [Option.isNone_iff_eq_none.mp (Option.isSome_eq_false_iff.mp hfound)]
    rfl
  cases use with
  | readField owner name ty receiver =>
    cases hmember
    exact hnone h _
  | invoke kind owner method receiver args =>
    cases hmember
    exact hnone h _
  | create ty params args =>
    cases hmember
    exact hnone h _
  | _ => cases hmember

theorem Nest.signature_of_method? {nest : Nest} {owner : Ty} {signature : Signature}
    {found : Method} (h : nest.method? owner signature = some found) :
    found.signature = signature := by
  obtain ⟨decl, _, hfind⟩ := Option.bind_eq_some_iff.mp h
  simpa using List.find?_some hfind

theorem Bridge.signature_forwarder {owner : Ty} {method : Signature} {found : Method}
    (h : found.signature = method) (name : String) :
    (Bridge.forwarder name owner method found.params true).signature =
      { method with name := name } := by
  subst h
  have hparams (params : List Param) :
      Bridge.namedParams (params.map Param.ty) params = params := by
    rw [Bridge.namedParams, List.zipWith_map_left, List.zipWith_self]
    exact List.map_id _
  simp only [Bridge.forwarder, MethodOf.signature, MethodOf.paramTypes, Bridge.receiverParams,
    if_true, List.nil_append, hparams]

theorem Nest.name_of_resolveSignature {nest : Nest} {current : Ty}
    {signature resolved : Signature}
    (h : nest.resolveSignature current signature = .ok resolved) :
    resolved.name = signature.name := by
  obtain ⟨result, _, h⟩ := bind_eq_ok.mp h
  obtain ⟨params, _, h⟩ := bind_eq_ok.mp h
  cases h
  rfl

theorem Nest.getLast?_of_resolveAll {nest : Nest} {current ty : Ty} {types resolved : List Ty}
    (h : nest.resolveAll current types = .ok resolved) (hlast : types.getLast? = some ty)
    (hty : nest.resolve current ty = .ok ty) : resolved.getLast? = some ty := by
  obtain ⟨before, rfl⟩ := List.getLast?_eq_some_iff.mp hlast
  rw [resolveAll, List.mapM_append] at h
  obtain ⟨first, _, h⟩ := bind_eq_ok.mp h
  rw [List.mapM_cons, hty] at h
  cases h
  exact List.getLast?_concat

/-- The use of a bridge reaches what the bridge adds. -/
theorem Nest.member?_of_through? {nest : Nest} {access use : Tree} {member : Member}
    {decl : BridgeDecl} (hmember : access.member? = some member)
    (huse : nest.through? access decl = some use) :
    use.member? = some (decl.added member.owner) := by
  cases access with
  | readField owner name ty receiver =>
    cases hmember
    cases decl with
    | method decl =>
      obtain ⟨field, _, huse⟩ := Option.bind_eq_some_iff.mp huse
      cases huse
      rfl
    | constructor decl => cases huse
  | invoke kind owner method receiver args =>
    cases hmember
    cases decl with
    | method decl =>
      obtain ⟨found, _, huse⟩ := Option.bind_eq_some_iff.mp huse
      cases huse
      rfl
    | constructor decl => cases huse
  | create ty params args =>
    cases hmember
    cases decl with
    | method decl => cases huse
    | constructor decl =>
      cases huse
      rfl
  | _ => cases hmember

namespace Bridges

variable {nest : Nest} {bridges bridges' : Bridges} {member : Member} {requester : Ty}
  {access use : Tree} {decl : BridgeDecl}

/-- Markers are named after a type, with a number. -/
def Numbered (bridges : Bridges) : Prop :=
  ∀ marker ∈ bridges.markers, ∃ base number, marker.ty = markerType base number

theorem Numbered.answers (h : bridges.Numbered)
    (hanswers : Answers nest bridges requester member decl bridges') : bridges'.Numbered := by
  cases hanswers with
  | shared | newMethod => exact h
  | @newConstructor owner types declared decl hfind hdecl =>
    intro marker hmarker
    rcases List.mem_append.mp hmarker with hmarker | hmarker
    · exact h marker hmarker
    · rw [List.mem_singleton.mp hmarker]
      exact ⟨_, _, rfl⟩

theorem Numbered.serve (h : bridges.Numbered) (call : Call) :
    (bridges.serve nest call).2.Numbered := by
  cases haccess : bridges.access? nest call.requester call.access with
  | none =>
    rw [serve_eq_none haccess]
    exact h
  | some answer =>
    obtain ⟨_, _, _, _, hanswers⟩ := answers_of_access? haccess
    rw [serve_eq_some haccess]
    exact h.answers hanswers

theorem Numbered.after (h : bridges.Numbered) (calls : List Call) :
    (bridges.after nest calls).Numbered := by
  induction calls generalizing bridges with
  | nil => exact h
  | cons call rest ih => exact ih (h.serve call)

theorem Sound.numbered (h : bridges.Sound nest) : bridges.Numbered := by
  obtain ⟨calls, rfl⟩ := h
  exact Numbered.after (fun marker hmarker => absurd hmarker List.not_mem_nil) calls

/-- Bridge methods are numbered, and bridge constructors take a marker last. -/
theorem Sound.reserved (h : bridges.Sound nest) (hdecl : (member, decl) ∈ bridges.declarations)
    (owner : Ty) : (decl.added owner).Reserved nest := by
  obtain ⟨calls, hserves⟩ := h.serves
  cases decl with
  | method method =>
    have hmethod : method ∈ bridges.methodsOf member.owner :=
      List.mem_filterMap.mpr ⟨_, hdecl, if_pos rfl⟩
    have hname := List.mem_map_of_mem (f := MethodOf.name) hmethod
    rw [hserves.names] at hname
    obtain ⟨number, _, hnumber⟩ := List.mem_map.mp hname
    exact .accessor hnumber.symm
  | constructor constructor =>
    have hconstructor : constructor ∈ bridges.constructors :=
      List.mem_filterMap.mpr ⟨_, hdecl, rfl⟩
    have hlast := List.mem_map_of_mem (f := fun decl => decl.paramTypes.getLast?) hconstructor
    rw [hserves.markers] at hlast
    obtain ⟨marker, hmarker, hty⟩ := List.mem_map.mp hlast
    have hunknown := hserves.unknown marker hmarker
    obtain ⟨base, number, hnumber⟩ := h.numbered marker hmarker
    rw [hnumber] at hty hunknown
    exact .marked hty.symm hunknown

theorem Sound.reserved_of_access? (h : bridges.Sound nest)
    (haccess : bridges.access? nest requester access = some (use, bridges')) :
    ∃ added, use.member? = some added ∧ added.Reserved nest := by
  obtain ⟨member, decl, hmember, hthrough, hanswers⟩ := answers_of_access? haccess
  exact ⟨decl.added member.owner, Nest.member?_of_through? hmember hthrough,
    (h.access? haccess).reserved hanswers.mem member.owner⟩

/-- Where names are left alone, the use of a bridge does not reach a declared
member, and no registry rewrites it again for any type. -/
theorem Sound.access?_final (h : bridges.Sound nest) (hnames : nest.LeavesNames)
    (haccess : bridges.access? nest requester access = some (use, bridges')) :
    ∃ added, use.member? = some added ∧ nest.declares added = false ∧
      ∀ (later : Bridges) (other : Ty), later.access? nest other use = none := by
  obtain ⟨added, hadded, hreserved⟩ := h.reserved_of_access? haccess
  have hdeclares := hnames added hreserved
  refine ⟨added, hadded, hdeclares, fun later other => ?_⟩
  exact access?_eq_none (Nest.trespasses_of_not_declares hadded hdeclares other)

/-- In any nest, the use of a bridge is rewritten again if and only if it reaches
a declared private member of another type. -/
theorem Sound.access?_again_iff (h : bridges.Sound nest)
    (haccess : bridges.access? nest requester access = some (use, bridges')) (other : Ty) :
    (bridges'.access? nest other use).isSome = true ↔ nest.trespasses other use = true := by
  obtain ⟨calls, hserves⟩ := (h.access? haccess).serves
  cases htrespasses : nest.trespasses other use with
  | false =>
    rw [access?_eq_none htrespasses]
    exact Iff.rfl
  | true =>
    obtain ⟨again, next, hagain, _⟩ := hserves.fit.access? htrespasses
    rw [hagain]
    exact Iff.rfl

/-- The registry gives an access back as its own bridge. -/
def Returns (nest : Nest) (requester : Ty) (access : Tree) (bridges : Bridges) : Prop :=
  ∃ next, bridges.access? nest requester access = some (access, next)

/-- An access that is given back once is given back every time: the bridge is
declared by then, and what is declared is not replaced. -/
theorem Sound.returns_again (h : bridges.Sound nest)
    (haccess : bridges.access? nest requester access = some (access, bridges')) :
    bridges'.Returns nest requester access := by
  have htrespasses : nest.trespasses requester access = true := by
    by_contra hpermitted
    rw [access?_eq_none (Bool.eq_false_iff.mpr hpermitted)] at haccess
    cases haccess
  obtain ⟨member, decl, hmember, hthrough, hanswers⟩ := answers_of_access? haccess
  obtain ⟨calls, hserves⟩ := (h.access? haccess).serves
  obtain ⟨again, next, hagain, _⟩ := hserves.fit.access? htrespasses
  have hserve := hserves.serve_of_mem hanswers.mem htrespasses hmember
  rw [serve_eq_some hagain, hthrough] at hserve
  cases hserve
  exact ⟨next, hagain⟩

/-- The first call of a private static method from another type is given back if
and only if the method has the name of the next accessor. -/
theorem returns_iff {owner : Ty} {method : Signature} {found : Method} {args : List Tree}
    (hfound : nest.method? owner method = some found)
    (hcloses : nest.closes requester owner found.modifiers = true)
    (hstatic : found.modifiers.isStatic = true)
    (hfind : bridges.find? (.method owner method) = none) :
    bridges.Returns nest requester (.invoke .static owner method none args) ↔
      method.name = bridges.nextAccessor owner := by
  have haccess : bridges.access? nest requester (.invoke .static owner method none args) = some
      (.invoke .static owner { method with name := bridges.nextAccessor owner } none args,
        bridges.addBridge (.method owner method) requester
          (.method (Bridge.forwarder (bridges.nextAccessor owner) owner method found.params
            true))) := by
    simp [Bridges.access?, accessor, hfound, nest.crosses_eq_closes, hcloses, hstatic, hfind,
      Bridge.signature_forwarder (Nest.signature_of_method? hfound), Member.owner]
  constructor
  · rintro ⟨next, hreturns⟩
    rw [haccess] at hreturns
    have huse := (Prod.mk.inj (Option.some.inj hreturns)).1
    injection huse with _ _ hmethod
    exact congrArg Signature.name hmethod.symm
  · intro hname
    rw [← hname] at haccess
    exact ⟨_, haccess⟩

end Bridges

section Lowering

open Lower

variable {env : Env} {s t : State} {tree access use resolved : Tree}

/-- Lowering an access is performing it once its types are resolved. -/
theorem Accesses.tree_apply (h : Accesses env s tree access) (recur : Recur) :
    Lowering.tree recur tree env s = Lowering.access recur access env s := by
  cases h with
  | readField howner hty =>
    rw [Lowering.tree, Lowering.readField_eq, bind_of_runs (runs_resolve.mpr ⟨howner, rfl⟩),
      bind_of_runs (runs_resolve.mpr ⟨hty, rfl⟩)]
  | invoke howner hmethod hadmits =>
    rw [Lowering.tree, Lowering.invoke_eq, bind_of_runs (runs_resolve.mpr ⟨howner, rfl⟩),
      bind_of_runs (runs_resolveSignature.mpr ⟨hmethod, rfl⟩),
      bind_of_runs (Derives.runs_checkInvocation.mpr ⟨hadmits, rfl⟩)]
  | create hty hparams =>
    rw [Lowering.tree, Lowering.create_eq, bind_of_runs (runs_resolve.mpr ⟨hty, rfl⟩),
      bind_of_runs (runs_resolveAll.mpr ⟨hparams, rfl⟩)]

/-- Resolving types keeps the name of a method and the marker of a constructor. -/
theorem Accesses.reserved {added : Member} (h : Accesses env s use resolved)
    (hmember : use.member? = some added) (hreserved : added.Reserved env.nest) :
    ∃ member, resolved.member? = some member ∧ member.Reserved env.nest := by
  cases h with
  | readField howner hty =>
    cases hmember
    cases hreserved
  | invoke howner hmethod hadmits =>
    cases hmember
    cases hreserved with
    | accessor hname =>
      exact ⟨_, rfl, .accessor ((Nest.name_of_resolveSignature hmethod).trans hname)⟩
  | create hty hparams =>
    cases hmember
    cases hreserved with
    | marked hlast hunknown =>
      exact ⟨_, rfl, .marked (Nest.getLast?_of_resolveAll hparams hlast rfl) hunknown⟩

/-- So the use of a bridge is lowered as it is: with its types resolved again it
needs no further bridge. -/
theorem State.bridged_once (hsound : s.bridges.Sound env.nest) (hnames : env.nest.LeavesNames)
    (h : s.bridged env access = (some use, t)) (hresolved : Accesses env t use resolved) :
    t.bridged env resolved = (none, t) := by
  obtain ⟨bridges, haccess, rfl⟩ := State.access?_of_bridged h
  obtain ⟨added, hadded, hreserved⟩ := hsound.reserved_of_access? haccess
  obtain ⟨member, hmember, hmemberReserved⟩ := hresolved.reserved hadded hreserved
  have hpermitted := Nest.trespasses_of_not_declares hmember (hnames member hmemberReserved)
  unfold State.bridged
  rw [Bridges.access?_eq_none (hpermitted _)]
  exact ite_self _

/-- Lowering of an access that is given back as its own bridge never settles. -/
theorem Bridges.Returns.unsettled (hbridges : env.options.bridges = true)
    (hsound : s.bridges.Sound env.nest) (haccess : Accesses env s access access)
    (h : s.bridges.Returns env.nest s.currentType access) (depth : Nat) :
    (Handlers.standard.run depth access env s).1 = .error (.unsettled access.kind) := by
  induction depth generalizing s with
  | zero => rfl
  | succ depth ih =>
    obtain ⟨next, hreturns⟩ := h
    have hbridged : s.bridged env access = (some access, { s with bridges := next }) := by
      rw [State.bridged, if_pos hbridges, hreturns]
    rw [Handlers.run_succ, haccess.tree_apply, Lowering.access, bind_of_runs (runs_bridged.mpr hbridged)]
    have hagain : Accesses env { s with bridges := next } access access := by
      cases haccess with
      | readField howner hty => exact .readField howner hty
      | invoke howner hmethod hadmits => exact .invoke howner hmethod hadmits
      | create hty hparams => exact .create hty hparams
    exact ih (hsound.access? hreturns) hagain (hsound.returns_again hreturns)

/-- A private method with the name of a first accessor. -/
def collidingMethod : Method :=
  ⟨"accessor$0", .privateFlag ||| .staticFlag, Ty.int, [], some (.ret (some (.int 1)))⟩

/-- A type that declares the method, and another type beside it. -/
def Nest.colliding : Nest :=
  let outer := Ty.object "Outer"
  ⟨[.bare outer .classType .publicFlag,
    { TypeDecl.bare (.object "Outer$Left") .classType .publicFlag with outer := some outer },
    { TypeDecl.bare (.object "Outer$Holder") .classType .publicFlag with
      outer := some outer
      methods := [collidingMethod] }], Nest.libraryTypes⟩

def Tree.collidingCall : Tree :=
  .invoke .static (.object "Outer$Holder") collidingMethod.signature none []

/-- The nest does not leave the name alone, and lowering the call from the other
type never settles. -/
theorem Tree.collidingCall_unsettled (depth : Nat) :
    let s := State.initial .colliding ⟨.empty, .empty⟩ ⟨.object "Outer$Left", "run", Ty.void, true⟩
    ¬ Nest.colliding.LeavesNames ∧
      (Handlers.standard.run depth collidingCall ⟨.colliding, {}⟩ s).1 =
        .error (.unsettled collidingCall.kind) := by
  intro s
  have hfound : Nest.colliding.method? (.object "Outer$Holder") collidingMethod.signature =
      some collidingMethod := rfl
  constructor
  · intro hnames
    have hname : collidingMethod.signature.name = "accessor$" ++ toString 0 := rfl
    have hdeclares := hnames (.method (.object "Outer$Holder") _) (.accessor hname)
    rw [Nest.declares, hfound] at hdeclares
    cases hdeclares
  · have hcurrent : s.currentType = .object "Outer$Left" := by decide +kernel
    have hreturns : s.bridges.Returns .colliding s.currentType collidingCall := by
      rw [hcurrent]
      have hcloses : Nest.colliding.closes (.object "Outer$Left") (.object "Outer$Holder")
          collidingMethod.modifiers = true := by decide +kernel
      exact (Bridges.returns_iff hfound hcloses (by decide +kernel) rfl).mpr (by decide +kernel)
    have haccess : Accesses ⟨.colliding, {}⟩ s collidingCall collidingCall :=
      .invoke rfl rfl (by decide +kernel)
    exact hreturns.unsettled rfl (.empty _) haccess depth

end Lowering

end StackLowering
