import StackLowering.Proofs.AliasTransparency
import StackLowering.Proofs.ConstructorCalls
/-!
Declared signatures. A method may name types of its signature by roles. A call is
looked up by a signature without roles, as they are resolved first, but the
declarations are compared as they are written. So the two agree exactly for the methods
whose signature names no type by a role. A method that does is found by no call, and a
private one is called directly from the other types of its nest.
-/

namespace StackLowering

/-- No type of the signature is named by a role. -/
def Signature.Plain (signature : Signature) : Prop :=
  signature.result.role? = none ∧ ∀ ty ∈ signature.params, ty.role? = none

namespace Nest

variable {nest : Nest} {current ty resolved : Ty} {types types' : List Ty}
  {signature signature' : Signature}

theorem AliasesObjects.role?_resolve (h : nest.AliasesObjects current)
    (hty : nest.resolve current ty = .ok resolved) : resolved.role? = none := by
  induction ty generalizing resolved with
  | prim | object =>
    cases hty
    rfl
  | array element ih =>
    rw [resolve] at hty
    cases hinner : nest.resolve current element with
    | error fault =>
      rw [hinner] at hty
      cases hty
    | ok inner =>
      rw [hinner] at hty
      cases hty
      have hplain : inner.role? = none := ih hinner
      exact hplain
  | symbolic role =>
    obtain ⟨name, rfl⟩ := h role resolved hty
    rfl

theorem resolve_of_role? (h : ty.role? = none) : nest.resolve current ty = .ok ty := by
  induction ty with
  | prim | object => rfl
  | array element ih =>
    rw [resolve, ih h]
    rfl
  | symbolic role => cases h

theorem forall₂_of_resolveAll (h : nest.resolveAll current types = .ok types') :
    List.Forall₂ (fun ty resolved => nest.resolve current ty = .ok resolved) types types' := by
  induction types generalizing types' with
  | nil =>
    cases h
    exact .nil
  | cons ty rest ih =>
    rw [resolveAll, List.mapM_cons] at h
    obtain ⟨resolved, hty, h⟩ := bind_eq_ok.mp h
    obtain ⟨rest', hrest, h⟩ := bind_eq_ok.mp h
    cases h
    exact .cons hty (ih hrest)

theorem resolveSignature_eq_ok (h : nest.resolveSignature current signature = .ok signature') :
    nest.resolve current signature.result = .ok signature'.result ∧
      List.Forall₂ (fun ty resolved => nest.resolve current ty = .ok resolved)
        signature.params signature'.params := by
  obtain ⟨result, hresult, h⟩ := bind_eq_ok.mp h
  obtain ⟨params, hparams, h⟩ := bind_eq_ok.mp h
  cases h
  exact ⟨hresult, forall₂_of_resolveAll hparams⟩

theorem AliasesObjects.plain_resolveSignature (haliases : nest.AliasesObjects current)
    (h : nest.resolveSignature current signature = .ok signature') : signature'.Plain := by
  obtain ⟨hresult, hparams⟩ := resolveSignature_eq_ok h
  refine ⟨haliases.role?_resolve hresult, fun ty hty => ?_⟩
  obtain ⟨written, _, hwritten⟩ := exists_of_forall₂_mem hparams.flip hty
  exact haliases.role?_resolve hwritten

theorem resolveAll_of_role? (h : ∀ ty ∈ types, ty.role? = none) :
    nest.resolveAll current types = .ok types := by
  induction types with
  | nil => rfl
  | cons ty rest ih =>
    obtain ⟨hty, hrest⟩ := List.forall_mem_cons.mp h
    have hrest := ih hrest
    rw [resolveAll] at hrest ⊢
    rw [List.mapM_cons, resolve_of_role? hty, hrest]
    rfl

theorem resolveSignature_of_plain (h : signature.Plain) (current : Ty) :
    nest.resolveSignature current signature = .ok signature := by
  rw [resolveSignature, resolve_of_role? h.1, resolveAll_of_role? h.2]
  rfl

section Declarations

variable {owner : Ty} {decl : TypeDecl} {method : Method}

theorem mem_of_method? (hdecl : nest.get? owner = some decl)
    (hfound : nest.method? owner signature = some method) : method ∈ decl.methods := by
  rw [method?, hdecl, Option.bind_some] at hfound
  exact List.mem_of_find?_eq_some hfound

theorem AliasesObjects.plain_of_method? (haliases : nest.AliasesObjects current)
    (hsignature : nest.resolveSignature current signature = .ok signature')
    (hfound : nest.method? owner signature' = some method) : method.signature.Plain := by
  rw [signature_of_method? hfound]
  exact haliases.plain_resolveSignature hsignature

/-- A declared method is found by its resolved signature exactly if it is declared
without roles. -/
theorem AliasesObjects.finds_iff (haliases : nest.AliasesObjects owner)
    (hdecl : nest.get? owner = some decl) (hmethod : method ∈ decl.methods)
    (hsignature : nest.resolveSignature owner method.signature = .ok signature') :
    (∃ found, nest.method? owner signature' = some found ∧ found.signature = method.signature) ↔
      method.signature.Plain := by
  constructor
  · rintro ⟨found, hfound, hsame⟩
    rw [← hsame]
    exact haliases.plain_of_method? hsignature hfound
  · intro hplain
    obtain rfl := Except.ok.inj ((resolveSignature_of_plain hplain owner).symm.trans hsignature)
    have hsome : (nest.method? owner method.signature).isSome = true := by
      rw [method?, hdecl, Option.bind_some, List.find?_isSome]
      exact ⟨method, hmethod, beq_self_eq_true _⟩
    obtain ⟨found, hfound⟩ := Option.isSome_iff_exists.mp hsome
    exact ⟨found, hfound, signature_of_method? hfound⟩

/-- Nothing is found where all methods with the resolved signature are declared with
roles. -/
theorem AliasesObjects.method?_eq_none (haliases : nest.AliasesObjects current)
    (hsignature : nest.resolveSignature current signature = .ok signature')
    (hdecl : nest.get? owner = some decl)
    (hroles : ∀ method ∈ decl.methods,
      nest.resolveSignature owner method.signature = .ok signature' → ¬ method.signature.Plain) :
    nest.method? owner signature' = none := by
  cases hfound : nest.method? owner signature' with
  | none => rfl
  | some method =>
    have hplain := haliases.plain_of_method? hsignature hfound
    refine absurd hplain (hroles method (mem_of_method? hdecl hfound) ?_)
    rw [signature_of_method? hfound]
    exact resolveSignature_of_plain (haliases.plain_resolveSignature hsignature) owner

end Declarations

end Nest

/-- A private method of another type, the only one with its resolved signature, is
reached through a bridge exactly if it is declared without roles. -/
theorem Bridges.Fit.isSome_access?_declared {nest : Nest} {bridges : Bridges}
    {requester owner : Ty} {decl : TypeDecl} {method : Method} {signature : Signature}
    (h : bridges.Fit) (haliases : nest.AliasesObjects owner)
    (hdecl : nest.get? owner = some decl) (hmethod : method ∈ decl.methods)
    (hsignature : nest.resolveSignature owner method.signature = .ok signature)
    (honly : ∀ other ∈ decl.methods,
      nest.resolveSignature owner other.signature = .ok signature → other = method)
    (hcloses : nest.closes requester owner method.modifiers = true) (kind : InvokeKind)
    (receiver : Option Tree) (args : List Tree) :
    (bridges.access? nest requester (.invoke kind owner signature receiver args)).isSome = true ↔
      method.signature.Plain := by
  have hsame : ∀ found, nest.method? owner signature = some found → found = method := by
    intro found hfound
    apply honly found (Nest.mem_of_method? hdecl hfound)
    rw [Nest.signature_of_method? hfound]
    exact Nest.resolveSignature_of_plain (haliases.plain_resolveSignature hsignature) owner
  rw [h.isSome_access?_invoke, ← haliases.finds_iff hdecl hmethod hsignature]
  constructor
  · rintro ⟨found, hfound, _⟩
    exact ⟨found, hfound, by rw [hsame found hfound]⟩
  · rintro ⟨found, hfound, _⟩
    obtain rfl := hsame found hfound
    exact ⟨found, hfound, hcloses⟩

namespace Lowering

/-- A call of a method that is declared with roles gets no bridge and is in the
finished code as a direct call, whoever may call the method. -/
theorem routine_calls_undeclared {env : Env} {decl : RoutineDecl} {shared shared' : Shared}
    {lowered : Routine} {locals : List Routine} {kind : InvokeKind} {owner owner' : Ty}
    {called signature : Signature} {receiver : Option Tree} {args before after : List Tree}
    {ownerDecl : TypeDecl}
    (hroutine : routine Handlers.standard.process decl env shared =
      (.ok (lowered, locals), shared'))
    (hbody : decl.body = .block (before ++ .invoke kind owner called receiver args :: after))
    (haliases : env.nest.AliasesObjects decl.owner)
    (howner : env.nest.resolve decl.owner owner = .ok owner')
    (hsignature : env.nest.resolveSignature decl.owner called = .ok signature)
    (hdecl : env.nest.get? owner' = some ownerDecl)
    (hroles : ∀ method ∈ ownerDecl.methods,
      env.nest.resolveSignature owner' method.signature = .ok signature →
        ¬ method.signature.Plain) (bridges : Bridges) :
    bridges.access? env.nest decl.owner (.invoke kind owner' signature receiver args) = none ∧
    ∃ offset constant, (⟨offset, .ofInvoke kind, .invoke constant (UInt8.ofNat args.length)⟩ :
        Instruction) ∈ lowered.code.chunk.instructions ∧
      shared'.pool.get? constant.toNat = some (.digest (calleeDigest owner' signature)) := by
  have hnone := haliases.method?_eq_none hsignature hdecl hroles
  refine ⟨Bridges.access?_eq_none ?_,
    routine_calls_directly hroutine hbody howner hsignature hnone⟩
  rw [Nest.trespasses, hnone]
  rfl

/-- A private method whose parameter and result are the owner, named by its role. -/
def sameMethod : Method :=
  ⟨"same", .privateFlag ||| .staticFlag, .symbolic .self, [⟨"o", .symbolic .self⟩],
    some (.ret (some (.readLocal "o" (.symbolic .self))))⟩

/-- A type that declares the method, and another type beside it. -/
def sameNest : Nest :=
  let outer := Ty.object "Outer"
  ⟨[.bare outer .classType .publicFlag,
    { TypeDecl.bare (.object "Outer$Left") .classType .publicFlag with outer := some outer },
    { TypeDecl.bare (.object "Outer$Holder") .classType .publicFlag with
      outer := some outer
      methods := [sameMethod] }], Nest.libraryTypes⟩

/-- The signature of the method with the owner written out. -/
def sameSignature : Signature := ⟨"same", .object "Outer$Holder", [.object "Outer$Holder"]⟩

/-- A routine of the other type that calls the method. -/
def sameCaller : RoutineDecl where
  owner := .object "Outer$Left"
  name := "run"
  params := [⟨"h", .object "Outer$Holder"⟩]
  result := Ty.void
  isStatic := true
  body := .block [.invoke .static (.object "Outer$Holder") sameSignature none
    [.readLocal "h" (.object "Outer$Holder")], .ret none]

/-- The method is closed to the other type and resolves to the called signature, but it
is not found by it, has another descriptor, and is called directly without a bridge. -/
theorem sameMethod_unbridged :
    let holder := Ty.object "Outer$Holder"
    sameNest.closes sameCaller.owner holder sameMethod.modifiers = true ∧
    sameNest.resolveSignature holder sameMethod.signature = .ok sameSignature ∧
    sameNest.method? holder sameSignature = none ∧
    sameMethod.signature.descriptor ≠ sameSignature.descriptor ∧
    ∃ lowered shared', routine Handlers.standard.process sameCaller ⟨sameNest, {}⟩ .empty =
        (.ok (lowered, []), shared') ∧ shared'.bridges.entries = [] ∧
      ∃ offset constant, (⟨offset, .invokeStatic, .invoke constant 1⟩ : Instruction) ∈
          lowered.code.chunk.instructions ∧
        shared'.pool.get? constant.toNat =
          some (.digest (calleeDigest holder sameSignature)) := by
  intro holder
  have hlocals : (routine Handlers.standard.process sameCaller ⟨sameNest, {}⟩
      .empty).1.toOption.map (·.2.length) = some 0 := by decide +kernel
  have hbridges : (routine Handlers.standard.process sameCaller ⟨sameNest, {}⟩
      .empty).2.bridges.entries.length = 0 := by decide +kernel
  have hnone : sameNest.method? holder sameSignature = none :=
    Option.isNone_iff_eq_none.mp (by decide +kernel)
  refine ⟨by decide +kernel, rfl, hnone, by decide +kernel, ?_⟩
  rcases hroutine : routine Handlers.standard.process sameCaller ⟨sameNest, {}⟩ .empty with
    ⟨_ | ⟨lowered, locals⟩, shared'⟩
  · rw [hroutine] at hlocals
    cases hlocals
  · rw [hroutine] at hlocals hbridges
    obtain rfl := List.eq_nil_of_length_eq_zero (Option.some.inj hlocals)
    refine ⟨lowered, shared', rfl, List.eq_nil_of_length_eq_zero hbridges, ?_⟩
    exact @routine_calls_directly _ _ _ _ _ _ .static holder holder sameSignature sameSignature
      none [.readLocal "h" holder] [] [.ret none] hroutine rfl rfl rfl hnone

end Lowering

end StackLowering
