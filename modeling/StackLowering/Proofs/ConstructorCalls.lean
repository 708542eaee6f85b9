import StackLowering.Proofs.ForwardedArguments
import StackLowering.Proofs.SwitchDispatch
/-!
Calls of constructors. A constructor that delegates to another one, of its own type or
of the type it extends, calls it by name. The call is looked up among the methods of
the owner, where no constructor is found, so it gets no bridge: a private constructor
of another type is called directly. Creating an object with the same constructor goes
through its bridge.
-/

namespace StackLowering

namespace Bridges

variable {nest : Nest} {bridges : Bridges} {requester owner : Ty} {kind : InvokeKind}
  {method : Signature} {receiver : Option Tree} {args : List Tree}

/-- A call gets a bridge if and only if it reaches a private method of another type;
the constructors of the owner play no part. -/
theorem Fit.isSome_access?_invoke (h : bridges.Fit) :
    (bridges.access? nest requester (.invoke kind owner method receiver args)).isSome = true ↔
      ∃ found, nest.method? owner method = some found ∧
        nest.closes requester owner found.modifiers = true := by
  have htrespasses : nest.trespasses requester (.invoke kind owner method receiver args) = true ↔
      ∃ found, nest.method? owner method = some found ∧
        nest.closes requester owner found.modifiers = true := Option.any_eq_true _ _
  rw [← htrespasses]
  constructor
  · intro hbridged
    by_contra hpermitted
    rw [access?_eq_none (Bool.eq_false_of_not_eq_true hpermitted)] at hbridged
    cases hbridged
  · intro hreaches
    obtain ⟨_, _, haccess, _⟩ := h.access? hreaches
    rw [haccess]
    rfl

/-- A call of a private constructor of another type gets no bridge, unless there is
also a method of its name. The creation of an object with it gets one. -/
theorem Sound.delegation_unbridged (h : bridges.Sound nest) {found : Constructor}
    (hfound : nest.constructor? owner method.params = some found)
    (hcloses : nest.closes requester owner found.modifiers = true)
    (hnone : nest.method? owner method = none) :
    bridges.access? nest requester (.invoke kind owner method receiver args) = none ∧
      ∃ marker bridges', bridges.access? nest requester (.create owner method.params args) =
        some (.create owner (method.params ++ [.object marker]) (args ++ [.null]), bridges') := by
  obtain ⟨calls, hserves⟩ := h.serves
  have htrespasses : nest.trespasses requester (.create owner method.params args) = true := by
    rw [Nest.trespasses, hfound]
    exact hcloses
  obtain ⟨use, bridges', haccess, _⟩ := hserves.fit.access? htrespasses
  obtain ⟨marker, _, rfl⟩ := @Sound.exists_delegate ⟨nest, {}⟩ _ _ _ _ _ _ _ _ h haccess hfound
  refine ⟨access?_eq_none ?_, marker, bridges', haccess⟩
  rw [Nest.trespasses, hnone]
  rfl

end Bridges

namespace Lowers

variable {env : Env} {s s' t : State} {kind : InvokeKind} {owner : Ty} {method : Signature}
  {receiver : Option Tree} {args : List Tree}

theorem of_seq_append {first rest : List Job} (h : Lowers env (.seq (first ++ rest)) s s') :
    ∃ m, Lowers env (.seq first) s m ∧ Lowers env (.seq rest) m s' := by
  induction first generalizing s with
  | nil => exact ⟨s, .nil, h⟩
  | cons job jobs ih =>
    cases h with
    | cons hjob hjobs =>
      obtain ⟨m, hfirst, hrest⟩ := ih hjobs
      exact ⟨m, .cons hjob hfirst, hrest⟩

/-- A call that gets no bridge is emitted as it is. -/
theorem invoke_inv (h : Lowers env (.tree (.invoke kind owner method receiver args)) s s')
    (hdirect : ∀ access, Accesses env s (.invoke kind owner method receiver args) access →
      (s.bridged env access).1 = none) :
    ∃ owner' method' m, Resolves env s owner owner' ∧
      env.nest.resolveSignature s.currentType method = .ok method' ∧
      Lowers env (.seq ((receiver.toList ++ args).map .value))
        (s.emitsAll (impliedReceiver kind receiver)) m ∧
      s' = (m.emits (.invoke kind (Lowering.calleeDigest owner' method') args.length)).discard
        method'.result := by
  cases h with
  | operation hoperation hoperands =>
    cases hoperation with
    | access haccess _ =>
      cases haccess with
      | invoke howner hmethod _ => exact ⟨_, _, _, howner, hmethod, hoperands, rfl⟩
  | bridged haccess hbridged _ =>
    have hnone := hdirect _ haccess
    rw [hbridged] at hnone
    cases hnone
  | rewritten hother | leave hother => cases hother

/-- A call that finds no method of the owner is in the finished code. -/
theorem mem_instructions_direct {decl : RoutineDecl} {shared : Shared} {output : RoutineOutput}
    {owner' : Ty} {method' : Signature}
    (h : Lowers env (.tree (.invoke kind owner method receiver args)) s s')
    (howner : Resolves env s owner owner')
    (hmethod : env.nest.resolveSignature s.currentType method = .ok method')
    (hnone : env.nest.method? owner' method' = none)
    (hstart : (State.initial env.nest shared decl.info).Leads s) (hrest : s'.Leads t)
    (hfinish : t.finish = .ok output) :
    ∃ offset constant, (⟨offset, .ofInvoke kind, .invoke constant (UInt8.ofNat args.length)⟩ :
        Instruction) ∈ output.code.chunk.instructions ∧
      t.assembler.pool.get? constant.toNat =
        some (.digest (Lowering.calleeDigest owner' method')) := by
  obtain ⟨hs, hs'⟩ := (h.leads rfl).passes_part hstart hrest hfinish
  have hdirect : ∀ access, Accesses env s (.invoke kind owner method receiver args) access →
      (s.bridged env access).1 = none := by
    intro access haccess
    cases haccess with
    | invoke howner'' hmethod'' _ =>
      obtain rfl := Except.ok.inj (howner.symm.trans howner'')
      obtain rfl := Except.ok.inj (hmethod.symm.trans hmethod'')
      rw [State.bridged, Bridges.access?_eq_none]
      · exact congrArg Prod.fst (ite_self _)
      · rw [Nest.trespasses, hnone]
        rfl
  obtain ⟨_, _, m, howner'', hmethod'', hoperands, rfl⟩ := h.invoke_inv hdirect
  obtain rfl := Except.ok.inj (howner.symm.trans howner'')
  obtain rfl := Except.ok.inj (hmethod.symm.trans hmethod'')
  have hreceiver : s.Leads (s.emitsAll (impliedReceiver kind receiver)) := by
    unfold impliedReceiver
    split
    · exact .refl s
    · exact .emits (fun _ => ⟨rfl, rfl⟩) rfl
    · exact .refl s
  have hpushes := hreceiver.trans (hoperands.leads (Job.bindsAll_map (fun _ => rfl) _))
  have hcall : m.Leads (m.emits
      (.invoke kind (Lowering.calleeDigest owner' method') args.length)) :=
    .emits (fun _ => trivial) rfl
  obtain ⟨hm, hm'⟩ := hs.before_discard hs' hpushes hcall
  obtain ⟨hindex, hget⟩ := hm'.constant rfl
  have hmem := hm.mem_instructions hm' trivial rfl ((State.Leads.discard _ _).trans hrest)
    (State.finish_eq_ok hfinish).1
  refine ⟨m.offset, _, hmem, ?_⟩
  rw [UInt16.toNat_ofNat_of_lt' hindex]
  exact hget

end Lowers

/-- A statement of the body of a routine is lowered on the way to the finished code. -/
theorem Lowers.exists_statement {env : Env} {decl : RoutineDecl} {shared : Shared} {t : State}
    {before after : List Tree} {tree : Tree}
    (h : Lowers env (.body decl) (.initial env.nest shared decl.info) t)
    (hbody : decl.body = .block (before ++ tree :: after)) :
    ∃ s s', Lowers env (.tree tree) s s' ∧ s.currentType = decl.owner ∧
      (State.initial env.nest shared decl.info).Leads s ∧ s'.Leads t := by
  obtain ⟨t₁, m, hparams, hstatement, rfl⟩ := h.body_inv
  rw [hbody] at hstatement
  cases hstatement with
  | @statement _ _ m htree =>
    have hseq := htree.block_inv rfl
    rw [List.map_append] at hseq
    obtain ⟨s, hbefore, hrest⟩ := hseq.of_seq_append
    cases hrest with
    | cons hjob hafter =>
      cases hjob with
      | @statement _ _ s' hcall =>
        have hdeclared := (State.Leads.reserveAll decl.body.variableNames
          (State.initial env.nest shared decl.info)).trans
            (hparams.leads (Job.bindsAll_map (fun _ => rfl) _))
        have hentered : t₁.Leads (t₁.withDepth 0) := .context rfl
        have hreached := (hdeclared.trans hentered).trans
          (hbefore.leads (Job.bindsAll_map (fun _ => rfl) _))
        have hleft : s'.Leads (s'.withDepth s.expressionDepth) := .context rfl
        have hdone : m.Leads (m.withDepth t₁.expressionDepth) := .context rfl
        have hrest := (hleft.trans (hafter.leads (Job.bindsAll_map (fun _ => rfl) _))).trans
          hdone
        have hkeeps := ((State.Keeps.refl
          (State.initial env.nest shared decl.info)).reserveAll
            decl.body.variableNames).trans hparams.keeps
        have hdata := hbefore.keeps.data.trans hkeeps.data
        refine ⟨s.withDepth 0, s', hcall, State.currentType_of_data hdata,
          hreached.trans (.context rfl), hrest.trans ?_⟩
        split_ifs
        · exact .emits (fun _ => ⟨rfl, rfl⟩) rfl
        · exact .refl _

namespace Lowering

/-- A routine calls directly what is not a method of the owner. -/
theorem routine_calls_directly {env : Env} {decl : RoutineDecl} {shared shared' : Shared}
    {lowered : Routine} {locals : List Routine} {kind : InvokeKind} {owner owner' : Ty}
    {method method' : Signature} {receiver : Option Tree} {args before after : List Tree}
    (hroutine : routine Handlers.standard.process decl env shared =
      (.ok (lowered, locals), shared'))
    (hbody : decl.body = .block (before ++ .invoke kind owner method receiver args :: after))
    (howner : env.nest.resolve decl.owner owner = .ok owner')
    (hmethod : env.nest.resolveSignature decl.owner method = .ok method')
    (hnone : env.nest.method? owner' method' = none) :
    ∃ offset constant, (⟨offset, .ofInvoke kind, .invoke constant (UInt8.ofNat args.length)⟩ :
        Instruction) ∈ lowered.code.chunk.instructions ∧
      shared'.pool.get? constant.toNat = some (.digest (calleeDigest owner' method')) := by
  have hrecur : Derives env Handlers.standard.process := Derives.process env
  obtain ⟨t, output, hlowers, hfinish, hresult, rfl⟩ := hrecur.routine hroutine
  obtain ⟨s, s', hcall, hcurrent, hstart, hrest⟩ := hlowers.exists_statement hbody
  obtain ⟨rfl, _⟩ := Prod.mk.inj hresult
  rw [← hcurrent] at howner hmethod
  exact hcall.mem_instructions_direct howner hmethod hnone hstart hrest hfinish

/-- A routine that delegates to a constructor calls it directly, also where it is a
private one of another type. -/
theorem routine_delegates {env : Env} {decl : RoutineDecl} {shared shared' : Shared}
    {lowered : Routine} {locals : List Routine} {kind : InvokeKind} {owner owner' : Ty}
    {method method' : Signature} {receiver : Option Tree} {args before after : List Tree}
    (hroutine : routine Handlers.standard.process decl env shared =
      (.ok (lowered, locals), shared'))
    (hbody : decl.body = .block (before ++ .invoke kind owner method receiver args :: after))
    (hname : method.name = Signature.constructorName)
    (howner : env.nest.resolve decl.owner owner = .ok owner')
    (hmethod : env.nest.resolveSignature decl.owner method = .ok method')
    (hnone : env.nest.method? owner' method' = none) :
    ∃ offset constant, (⟨offset, .ofInvoke kind, .invoke constant (UInt8.ofNat args.length)⟩ :
        Instruction) ∈ lowered.code.chunk.instructions ∧
      shared'.pool.get? constant.toNat =
        some (.digest (Digest.ofConstructor owner'.digest (method'.params.map Ty.digest))) := by
  have hdigest : calleeDigest owner' method' =
      Digest.ofConstructor owner'.digest (method'.params.map Ty.digest) :=
    if_pos ((Nest.name_of_resolveSignature hmethod).trans hname)
  rw [← hdigest]
  exact routine_calls_directly hroutine hbody howner hmethod hnone

/-- A private constructor. -/
def baseConstructor : Constructor := ⟨.privateFlag, [⟨"size", Ty.int⟩], some (.ret none)⟩

/-- The constructor of an extending type delegates to the private one. -/
def derivedConstructor : RoutineDecl where
  owner := .object "Outer$Derived"
  name := Signature.constructorName
  params := []
  result := Ty.void
  isStatic := false
  body := .block [.invoke .special (.object "Outer$Base")
    ⟨Signature.constructorName, Ty.void, [Ty.int]⟩ (some .self) [.int 1], .ret none]

def delegatingNest : Nest :=
  let outer := Ty.object "Outer"
  ⟨[.bare outer .classType .publicFlag,
    { TypeDecl.bare (.object "Outer$Base") .classType .publicFlag with
      outer := some outer
      constructors := [baseConstructor] },
    { TypeDecl.bare (.object "Outer$Derived") .classType .publicFlag with
      outer := some outer
      superclass := some (.object "Outer$Base") }], Nest.libraryTypes⟩

/-- The private constructor is closed to the extending type, which calls it directly,
and there is no bridge. -/
theorem derivedConstructor_trespasses :
    let base := Ty.object "Outer$Base"
    delegatingNest.closes derivedConstructor.owner base baseConstructor.modifiers = true ∧
    ∃ lowered shared', routine Handlers.standard.process derivedConstructor ⟨delegatingNest, {}⟩
        .empty = (.ok (lowered, []), shared') ∧ shared'.bridges.entries = [] ∧
      ∃ offset constant, (⟨offset, .invokeSpecial, .invoke constant 1⟩ : Instruction) ∈
          lowered.code.chunk.instructions ∧
        shared'.pool.get? constant.toNat =
          some (.digest (Digest.ofConstructor base.digest [Ty.int.digest])) := by
  intro base
  have hlocals : (routine Handlers.standard.process derivedConstructor ⟨delegatingNest, {}⟩
      .empty).1.toOption.map (·.2.length) = some 0 := by decide +kernel
  have hbridges : (routine Handlers.standard.process derivedConstructor ⟨delegatingNest, {}⟩
      .empty).2.bridges.entries.length = 0 := by decide +kernel
  refine ⟨by decide +kernel, ?_⟩
  rcases hroutine : routine Handlers.standard.process derivedConstructor ⟨delegatingNest, {}⟩
    .empty with ⟨_ | ⟨lowered, locals⟩, shared'⟩
  · rw [hroutine] at hlocals
    cases hlocals
  · rw [hroutine] at hlocals hbridges
    obtain rfl := List.eq_nil_of_length_eq_zero (Option.some.inj hlocals)
    refine ⟨lowered, shared', rfl, List.eq_nil_of_length_eq_zero hbridges, ?_⟩
    exact @routine_delegates _ _ _ _ _ _ .special base base ⟨_, _, [Ty.int]⟩ ⟨_, _, [Ty.int]⟩
      (some .self) [.int 1] [] [.ret none] hroutine rfl rfl rfl rfl (by decide +kernel)

end Lowering

end StackLowering
