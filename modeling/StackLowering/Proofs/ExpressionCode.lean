import StackLowering.Proofs.Placement
/-!
The code of expressions. Lowered where its value is used, an expression over
ints and booleans leaves its value on the stack; lowered as a condition, it
jumps exactly if it has the value that the jump is for.
-/

namespace StackLowering

variable {left right : Tree} {call : Call} {label : Label}

namespace State

variable {s m : State}

theorem Pending.emits (h : s.Pending label) (hcall : call.bound? = none) :
    (s.emits call).Pending label := by
  apply (BindsOnly.call s call).pending h
  rw [hcall]
  exact List.not_mem_nil

theorem Pending.bind {other : Label} (h : s.Pending label) (hne : label ≠ other) :
    (s.emits (.bind other)).Pending label := by
  apply (BindsOnly.call s (.bind other)).pending h
  exact fun hmem => hne (List.mem_singleton.mp hmem)

theorem offset_emits (h : call.instruction? s.assembler.pool = none) :
    (s.emits call).offset = s.offset := by
  obtain ⟨hchunk, _⟩ := Call.run_of_instruction?_none h
  rw [offset, Assembler.offset, emits, onAssembler, hchunk]
  rfl

theorem offset_newLabels (count : Nat) (s : State) : (s.newLabels count).offset = s.offset := by
  induction count with
  | zero => rfl
  | succ count ih => exact (offset_emits rfl).trans ih

theorem discard_of_used {ty : Ty} (h : (m.discard ty).expressionDepth ≠ 0) : m.discard ty = m := by
  unfold discard at h ⊢
  split_ifs at h ⊢ with hused
  · rfl
  · exact absurd (Nat.pos_of_ne_zero h) (of_decide_eq_false (Bool.eq_false_of_not_eq_true hused))

end State

theorem Resolves.eq_of_plain {env : Env} {s : State} {ty resolved : Ty}
    (h : Resolves env s ty resolved) (hty : ty = Ty.int ∨ ty = Ty.bool) : resolved = ty := by
  rcases hty with rfl | rfl <;> exact (Except.ok.inj h).symm

namespace Lowers

variable {env : Env} {s s' : State}

theorem pending {job : Job} (h : Lowers env job s s') (hbinds : job.binds = [])
    (hlabel : s.Pending label) : s'.Pending label := by
  apply h.bindsOnly.pending hlabel
  rw [hbinds]
  exact List.not_mem_nil

theorem literal_inv {value : Literal} (hcall : value.call? = some call)
    (h : Lowers env (.tree (.literal value)) s s') :
    s' = (s.emits call).discard value.valueType := by
  cases h with
  | operation hoperation hoperands =>
    cases hoperation with
    | literal hcall' =>
      obtain rfl := Option.some.inj (hcall.symm.trans hcall')
      cases hoperands
      rfl
    | classOf => cases hcall
    | access haccess => cases haccess
  | bridged hother | rewritten hother | leave hother => cases hother

theorem readLocal_inv {name : String} {ty : Ty}
    (h : Lowers env (.tree (.readLocal name ty)) s s') :
    ∃ ty' slot, Resolves env s ty ty' ∧ s.slots.require name ty' = .ok slot ∧
      s' = (s.emits (.getLocal slot)).discard ty' := by
  cases h with
  | operation hoperation hoperands =>
    cases hoperation with
    | readLocal hty hslot =>
      cases hoperands
      exact ⟨_, _, hty, hslot, rfl⟩
    | access haccess => cases haccess
  | bridged hother | rewritten hother | leave hother => cases hother

end Lowers

namespace Image

variable {image : Image} {env : Env} {scopes : ScopeStack} {s m s' : State} {tree : Tree} {ty : Ty}

theorem Passes.congr (h : image.Passes s) (hassembler : s'.assembler = s.assembler)
    (hslots : s'.slots = s.slots) : image.Passes s' := by
  obtain ⟨hvalid, hcoded, hdecodes, hpool, hpositions, hframe, hoverflow⟩ := h
  constructor
  all_goals
    first
    | rw [hassembler]
    | rw [hslots]
    assumption

theorem Passes.before_discard (h : image.Passes s) (h' : image.Passes ((m.emits call).discard ty))
    (hbefore : s.Leads m) (hcall : m.Leads (m.emits call)) :
    image.Passes m ∧ image.Passes (m.emits call) := by
  have hdiscard := State.Leads.discard ty (m.emits call)
  exact ⟨h.between h' hbefore (hcall.trans hdiscard),
    h.between h' (hbefore.trans hcall) hdiscard⟩

theorem Passes.constant {value : Constant} (h : image.Passes (s.emits call))
    (hconstants : call.constants = [value]) :
    (s.assembler.pool.add value).1 < 65536 ∧
      image.program.pool.get? (s.assembler.pool.add value).1 = some value := by
  obtain ⟨_, hencodes⟩ := Call.overflow_run_eq_none.mp h.overflow
  have hpool : (s.emits call).assembler.pool = (s.assembler.pool.add value).2 := by
    rw [State.emits, State.onAssembler, Call.pool_run, hconstants]
    rfl
  refine ⟨hencodes.indices _ (by rw [hconstants]; exact List.mem_cons_self), ?_⟩
  apply h.pool
  rw [hpool]
  exact s.assembler.pool.get?_add value

/-- The call that pushes an int. -/
theorem Passes.step_int {value : Int32} {stack locals : List Int32}
    {writes : List (Digest × Int32)} (h : image.Passes s)
    (h' : image.Passes (s.emits (.int value))) :
    image.program.step ⟨s.offset, stack, locals, writes⟩ =
      .running ⟨(s.emits (.int value)).offset, value :: stack, locals, writes⟩ := by
  by_cases hzero : value = 0
  · subst hzero
    exact (h.read h' trivial rfl).step_push rfl
  · by_cases hone : value = 1
    · subst hone
      exact (h.read h' trivial rfl).step_push rfl
    · have hconstants : (Call.int value).constants = [.int value] := by
        rw [Call.constants, if_neg hzero, if_neg hone]
      have hinstr : (Call.int value).instruction? s.assembler.pool =
          some (loadConstant (s.assembler.pool.add (.int value)).1) := by
        rw [Call.instruction?, if_neg hzero, if_neg hone]
      obtain ⟨hindex, hvalue⟩ := h'.constant hconstants
      exact (h.read h' trivial hinstr).step_constant hindex hvalue

/-- The code from one state to another computes an expression. -/
structure Yields (image : Image) (scopes : ScopeStack) (tree : Tree) (ty : Ty)
    (s s' : State) : Prop where
  slots : s'.slots = s.slots
  computes : image.program.Computes scopes tree ty s.offset s'.offset

/-- The code from one state to another decides a condition. -/
structure Decides (image : Image) (scopes : ScopeStack) (condition : Tree) (sense : Bool)
    (target : Label) (s s' : State) : Prop where
  slots : s'.slots = s.slots
  tests : image.program.Tests scopes condition sense (image.position target) s.offset s'.offset

/-- Whatever lowers the expression computes it, and then discards it if it is not used. -/
def Computed (image : Image) (env : Env) (scopes : ScopeStack) (tree : Tree) (ty : Ty) : Prop :=
  ∀ ⦃s s' : State⦄, Lowers env (.tree tree) s s' → image.Passes s → image.Passes s' →
    s.slots.Represents scopes →
    ∃ m, s' = m.discard ty ∧ image.Passes m ∧ image.Yields scopes tree ty s m

/-- Whatever lowers jumps on the condition decides it. -/
def Decided (image : Image) (env : Env) (scopes : ScopeStack) (condition : Tree) : Prop :=
  ∀ ⦃sense : Bool⦄ ⦃target : Label⦄ ⦃s s' : State⦄,
    Lowers env (.jumpIf condition sense target) s s' → image.Passes s → image.Passes s' →
    s.slots.Represents scopes → image.Decides scopes condition sense target s s'

theorem Computed.value (h : image.Computed env scopes tree ty)
    (hlowers : Lowers env (.value tree) s s') (hs : image.Passes s) (hs' : image.Passes s')
    (hscopes : s.slots.Represents scopes) : image.Yields scopes tree ty s s' := by
  cases hlowers with
  | @value _ _ m htree =>
    have hdepth : m.expressionDepth = s.expressionDepth + 1 := htree.keeps.depth
    obtain ⟨m', rfl, _, hyields⟩ :=
      h htree (hs.congr rfl rfl) (hs'.congr rfl rfl) hscopes
    have hused : m'.discard ty = m' := by
      apply State.discard_of_used
      omega
    rw [hused]
    exact ⟨hyields.slots, hyields.computes⟩

/-- Two operands, one after the other. -/
theorem Computed.operands {ty' : Ty} (hleft : image.Computed env scopes left ty)
    (hright : image.Computed env scopes right ty')
    (hlowers : Lowers env (.seq [.value left, .value right]) s s') (hs : image.Passes s)
    (hs' : image.Passes s') (hscopes : s.slots.Represents scopes) :
    ∃ m, image.Yields scopes left ty s m ∧ image.Yields scopes right ty' m s' := by
  cases hlowers with
  | cons hfirst hrest =>
    cases hrest with
    | cons hsecond hnil =>
      cases hnil
      have hm := hs.between hs' (hfirst.leads rfl) (hsecond.leads rfl)
      have hyields := hleft.value hfirst hs hm hscopes
      exact ⟨_, hyields, hright.value hsecond hm hs' (hyields.slots ▸ hscopes)⟩

theorem computed_int (value : Int32) :
    image.Computed env scopes (.literal (.int value)) Ty.int := by
  intro s s' hlowers hs hs' _
  obtain rfl := hlowers.literal_inv rfl
  obtain ⟨_, hafter⟩ := hs.before_discard hs' (.refl s) (.emits (fun _ => trivial) rfl)
  refine ⟨_, rfl, hafter, rfl, Program.computes_int fun stack locals writes => ?_⟩
  exact hs.step_int hafter

theorem computed_bool (value : Bool) :
    image.Computed env scopes (.literal (.bool value)) Ty.bool := by
  intro s s' hlowers hs hs' _
  obtain rfl := hlowers.literal_inv rfl
  obtain ⟨_, hafter⟩ := hs.before_discard hs' (.refl s) (.emits (Call.plain_bool value) rfl)
  refine ⟨_, rfl, hafter, rfl, Program.computes_bool (hs.read hafter trivial rfl) ?_⟩
  cases value <;> rfl

theorem computed_readLocal {name : String} (hty : ty = Ty.int ∨ ty = Ty.bool) :
    image.Computed env scopes (.readLocal name ty) ty := by
  intro s s' hlowers hs hs' hscopes
  obtain ⟨ty', slot, hresolves, hslot, rfl⟩ := hlowers.readLocal_inv
  obtain rfl := hresolves.eq_of_plain hty
  obtain ⟨_, hafter⟩ := hs.before_discard hs' (.refl s)
    (.step (fun hvalid => hvalid.lists_of_require hslot) nofun)
  obtain ⟨binding, hbinding, rfl, rfl⟩ := Slots.require_eq_ok.mp hslot
  rw [hscopes.bindings] at hbinding
  exact ⟨_, rfl, hafter, rfl, Program.computes_readLocal hbinding (hs.read hafter trivial rfl)⟩

theorem Computed.arith {op : ArithOp} (hop : op ≠ .div ∧ op ≠ .rem)
    (hleft : image.Computed env scopes left Ty.int)
    (hright : image.Computed env scopes right Ty.int) :
    image.Computed env scopes (.arith op Ty.int left right) Ty.int := by
  intro s s' hlowers hs hs' hscopes
  cases hlowers with
  | bridged hother | rewritten hother | leave hother => cases hother
  | @operation _ _ _ m hoperation hoperands => ?_
  cases hoperation with
  | access haccess => cases haccess
  | @arith _ _ ty' _ _ opcode hresolves hopcode => ?_
  obtain rfl := hresolves.eq_of_plain (.inl rfl)
  have hplain : (Call.op opcode).Plain := fun _ => ArithOp.bare_of_opcode? hopcode
  obtain ⟨hm, hafter⟩ := hs.before_discard hs' (hoperands.leads rfl) (.emits hplain rfl)
  obtain ⟨m', hfirst, hsecond⟩ := hleft.operands hright hoperands hs hm hscopes
  refine ⟨_, rfl, hafter, hsecond.slots.trans hfirst.slots, ?_⟩
  exact hfirst.computes.arith hop hopcode hsecond.computes
    (hm.read hafter (hplain m.slots).proper rfl)

theorem comparedType_eq (hleft : left.HasType ty) :
    Lowering.comparedType left right = ty := by
  cases hleft <;> rfl

theorem Computed.compare {op : CompareOp} (htype : left.HasType ty)
    (hleft : image.Computed env scopes left ty) (hright : image.Computed env scopes right ty) :
    image.Computed env scopes (.compare op left right) Ty.bool := by
  intro s s' hlowers hs hs' hscopes
  cases hlowers with
  | bridged hother | rewritten hother | leave hother => cases hother
  | @operation _ _ _ m hoperation hoperands => ?_
  cases hoperation with
  | access haccess => cases haccess
  | @compare _ ty' _ _ opcode hresolves hopcode => ?_
  rw [comparedType_eq htype] at hresolves
  obtain rfl := hresolves.eq_of_plain htype.eq_int_or_bool
  have hcategory : ty'.category = .i32 := by
    rcases htype.eq_int_or_bool with rfl | rfl <;> rfl
  rw [hcategory] at hopcode
  have hplain : (Call.op opcode).Plain := fun _ => CompareOp.bare_of_opcode? hopcode
  have hfirst : m.Leads (m.emits (.op opcode)) := .emits hplain rfl
  by_cases hne : op = .ne
  · subst hne
    obtain rfl : opcode = .eqI32 := (Option.some.inj hopcode).symm
    have hnot : (Call.op .not).Plain := fun _ => ⟨rfl, rfl⟩
    obtain ⟨hmiddle, hafter⟩ := hs.before_discard hs' ((hoperands.leads rfl).trans hfirst)
      (.emits hnot rfl)
    have hm := hs.between hmiddle (hoperands.leads rfl) hfirst
    obtain ⟨m', hyields, hyields'⟩ := hleft.operands hright hoperands hs hm hscopes
    refine ⟨_, rfl, hafter, hyields'.slots.trans hyields.slots, ?_⟩
    exact hyields.computes.compare_ne hyields'.computes
      (hm.read hmiddle (hplain m.slots).proper rfl) (hmiddle.read hafter (hnot m.slots).proper rfl)
  · rw [if_neg hne] at hs' ⊢
    obtain ⟨hm, hafter⟩ := hs.before_discard hs' (hoperands.leads rfl) hfirst
    obtain ⟨m', hyields, hyields'⟩ := hleft.operands hright hoperands hs hm hscopes
    refine ⟨_, rfl, hafter, hyields'.slots.trans hyields.slots, ?_⟩
    exact hyields.computes.compare hne hopcode hyields'.computes
      (hm.read hafter (hplain m.slots).proper rfl)

theorem Computed.not (h : image.Computed env scopes tree Ty.bool) :
    image.Computed env scopes (.not tree) Ty.bool := by
  intro s s' hlowers hs hs' hscopes
  have hplain : (Call.op .not).Plain := fun _ => ⟨rfl, rfl⟩
  cases hlowers with
  | bridged hother | rewritten hother | leave hother => cases hother
  | operation hoperation hoperands =>
    cases hoperation with
    | access haccess => cases haccess
    | not =>
      cases hoperands with
      | cons hoperand hnil =>
        cases hnil
        obtain ⟨hm, hafter⟩ := hs.before_discard hs' (hoperand.leads rfl) (.emits hplain rfl)
        have hyields := h.value hoperand hs hm hscopes
        exact ⟨_, rfl, hafter, hyields.slots,
          hyields.computes.not (hm.read hafter (hplain s.slots).proper rfl)⟩

section Flags

variable {otherwise done : Label} {m₁ m₂ m₃ m₄ m₅ : State}
  (h₁ : m₁ = m.emits (.bool true)) (h₂ : m₂ = m₁.emits (.jump .jump done))
  (h₃ : m₃ = m₂.emits (.bind otherwise)) (h₄ : m₄ = m₃.emits (.bool false))
  (h₅ : m₅ = m₄.emits (.bind done)) (hotherwise : m.Pending otherwise) (hdone : m.Pending done)
  (hne : otherwise ≠ done)

include h₁ h₂ h₃ h₄ h₅ hotherwise hdone hne

theorem leads_flags : m.Leads m₁ ∧ m₁.Leads m₂ ∧ m₂.Leads m₃ ∧ m₃.Leads m₄ ∧ m₄.Leads m₅ := by
  have hwaits : m₂.Pending otherwise ∧ m₂.Pending done := by
    rw [h₂, h₁]
    exact ⟨(hotherwise.emits rfl).emits rfl, (hdone.emits rfl).emits rfl⟩
  have hlast : m₄.Pending done := by
    rw [h₄, h₃]
    exact (hwaits.2.bind hne.symm).emits rfl
  refine ⟨?_, ?_, ?_, ?_, ?_⟩
  · rw [h₁]
    exact .emits (Call.plain_bool true) rfl
  · rw [h₂]
    exact .jump done
  · rw [h₃]
    exact .bind hwaits.1
  · rw [h₄]
    exact .emits (Call.plain_bool false) rfl
  · rw [h₅]
    exact .bind hlast

/-- The code of these calls. What jumps to `otherwise` finds `false` there, and
both values are left at the end. -/
theorem reads_flags (hm : image.Passes m) (hm₅ : image.Passes m₅) :
    image.program.At m.offset .pushTrue .none m₁.offset ∧
      image.program.At m₁.offset .jump (.jump m₅.offset) m₂.offset ∧
      image.program.At m₂.offset .pushFalse .none m₅.offset ∧
      image.position otherwise = m₂.offset := by
  obtain ⟨hleads₁, hleads₂, hleads₃, hleads₄, hleads₅⟩ :=
    leads_flags h₁ h₂ h₃ h₄ h₅ hotherwise hdone hne
  have hm₄ := hm.between hm₅ (hleads₁.trans (hleads₂.trans (hleads₃.trans hleads₄))) hleads₅
  have hm₃ := hm.between hm₄ (hleads₁.trans (hleads₂.trans hleads₃)) hleads₄
  have hm₂ := hm.between hm₃ (hleads₁.trans hleads₂) hleads₃
  have hm₁ := hm.between hm₂ hleads₁ hleads₂
  have hcount : m.labelCount ≤ m₂.labelCount ∧ m₂.labelCount ≤ m₄.labelCount := by
    rw [h₄, h₃, h₂, h₁]
    exact ⟨((State.BindsOnly.call _ _).count.trans (State.BindsOnly.call _ _).count),
      ((State.BindsOnly.call _ _).count.trans (State.BindsOnly.call _ _).count)⟩
  have hfirst : image.position otherwise = m₂.offset := by
    rw [h₃] at hm₃
    exact hm₃.position_bind (hotherwise.known.trans_le hcount.1)
  have hsecond : image.position done = m₄.offset := by
    rw [h₅] at hm₅
    exact hm₅.position_bind (hdone.known.trans_le (hcount.1.trans hcount.2))
  have hoffset₃ : m₃.offset = m₂.offset := h₃ ▸ State.offset_emits rfl
  have hoffset₅ : m₅.offset = m₄.offset := h₅ ▸ State.offset_emits rfl
  refine ⟨?_, ?_, ?_, hfirst⟩
  · rw [h₁] at hm₁ ⊢
    exact hm.read hm₁ trivial rfl
  · rw [hoffset₅, ← hsecond]
    rw [h₂] at hm₂ ⊢
    exact hm₁.read hm₂ rfl rfl
  · rw [hoffset₅, ← hoffset₃]
    rw [h₄] at hm₄ ⊢
    exact hm₃.read hm₄ trivial rfl

theorem Decides.yields (h : image.Decides scopes tree false otherwise s m) (hm : image.Passes m)
    (hm₅ : image.Passes m₅) : image.Yields scopes tree Ty.bool s m₅ := by
  obtain ⟨htrue, hjump, hfalse, hposition⟩ :=
    reads_flags h₁ h₂ h₃ h₄ h₅ hotherwise hdone hne hm hm₅
  have htests := h.tests
  rw [hposition] at htests
  refine ⟨?_, htests.computes htrue hjump hfalse⟩
  rw [h₅, h₄, h₃, h₂, h₁]
  exact h.slots

end Flags

/-- A condition that is decided by jumps is turned into its value. -/
theorem Decided.computed {op : LogicalOp} (h : image.Decided env scopes (.logical op left right)) :
    image.Computed env scopes (.logical op left right) Ty.bool := by
  intro s s' hlowers hs hs' hscopes
  cases hlowers with
  | operation hother => cases hother.not_isControl
  | bridged hother | rewritten hother | leave hother => cases hother
  | @logical _ _ _ _ m hjumps => ?_
  have hpending {index : Nat} (hindex : index < 2) : m.Pending (s.label index) :=
    hjumps.pending rfl (s.pending_newLabels hindex)
  have hne : s.label 0 ≠ s.label 1 := by simp [State.label]
  obtain ⟨hleads₁, hleads₂, hleads₃, hleads₄, hleads₅⟩ :=
    leads_flags rfl rfl rfl rfl rfl (hpending Nat.two_pos) (hpending Nat.one_lt_two) hne
  have hflags := hleads₁.trans (hleads₂.trans (hleads₃.trans (hleads₄.trans hleads₅)))
  have hnew := State.Leads.newLabels 2 s
  have hafter := hs.between hs' (hnew.trans ((hjumps.leads rfl).trans hflags)) (.discard Ty.bool _)
  have hm := hs.between hafter (hnew.trans (hjumps.leads rfl)) hflags
  have hstart := hs.between hm hnew (hjumps.leads rfl)
  have hdecides := h hjumps hstart hm ((s.slots_newLabels 2).symm ▸ hscopes)
  have hyields := hdecides.yields rfl rfl rfl rfl rfl (hpending Nat.two_pos)
    (hpending Nat.one_lt_two) hne hm hafter
  refine ⟨_, rfl, hafter, hyields.slots.trans (s.slots_newLabels 2), ?_⟩
  rw [← s.offset_newLabels 2]
  exact hyields.computes

theorem Computed.decided (h : image.Computed env scopes tree Ty.bool)
    (htested : tree.isTested = true) : image.Decided env scopes tree := by
  intro sense target s s' hlowers hs hs' hscopes
  cases hlowers with
  | testJumps _ hvalue =>
    have hplain := Call.plain_jumpIf sense target
    have hm := hs.between hs' (hvalue.leads rfl) (.emits hplain rfl)
    have hyields := h.value hvalue hs hm hscopes
    exact ⟨hyields.slots, hyields.computes.tests (hm.read hs' (hplain s.slots).proper rfl)⟩
  | _ => cases htested

theorem decided_bool (value : Bool) : image.Decided env scopes (.literal (.bool value)) := by
  intro sense target s s' hlowers hs hs' _
  cases hlowers with
  | literalJumps =>
    exact ⟨rfl, Program.tests_literal_jump (hs.read hs' rfl rfl)⟩
  | literalSkips hsense => exact ⟨rfl, Program.tests_literal_skip hsense⟩
  | testJumps htested => cases htested

theorem Decided.not (h : image.Decided env scopes tree) : image.Decided env scopes (.not tree) := by
  intro sense target s s' hlowers hs hs' hscopes
  cases hlowers with
  | notJumps hoperand =>
    have hdecides := h hoperand hs hs' hscopes
    exact ⟨hdecides.slots, hdecides.tests.not⟩
  | testJumps htested => cases htested

theorem Decided.logical {op : LogicalOp} (hleft : image.Decided env scopes left)
    (hright : image.Decided env scopes right) :
    image.Decided env scopes (.logical op left right) := by
  intro sense target s s' hlowers hs hs' hscopes
  cases hlowers with
  | sameJumps hsense hfirst hsecond =>
    have hm := hs.between hs' (hfirst.leads rfl) (hsecond.leads rfl)
    have hdecides := hleft hfirst hs hm hscopes
    have hdecides' := hright hsecond hm hs' (hdecides.slots ▸ hscopes)
    exact ⟨hdecides'.slots.trans hdecides.slots, hdecides.tests.logical_same hsense hdecides'.tests⟩
  | @skipJumps _ _ _ _ _ _ m m' hsense hfirst hsecond =>
    have hpending : m'.Pending (s.label 0) :=
      hsecond.pending rfl (hfirst.pending rfl (s.pending_newLabels Nat.one_pos))
    have hnew : s.Leads (s.emits .newLabel) := .newLabels 1 s
    have hbind := State.Leads.bind hpending
    have hrest := (hfirst.leads rfl).trans (hsecond.leads rfl)
    have hstart := hs.between hs' hnew (hrest.trans hbind)
    have hm' := hs.between hs' (hnew.trans hrest) hbind
    have hm := hstart.between hm' (hfirst.leads rfl) (hsecond.leads rfl)
    have hdecides := hleft hfirst hstart hm hscopes
    have hdecides' := hright hsecond hm hm' (hdecides.slots ▸ hscopes)
    have hskip : image.position (s.label 0) = m'.offset := hs'.position_bind hpending.known
    have htests := hdecides.tests
    rw [hskip, State.offset_emits rfl] at htests
    refine ⟨hdecides'.slots.trans hdecides.slots, ?_⟩
    rw [State.offset_emits rfl]
    exact htests.logical_skip hsense hdecides'.tests
  | testJumps htested => cases htested

theorem computed_of_hasType (h : tree.HasType ty) :
    image.Computed env scopes tree ty ∧ (ty = Ty.bool → image.Decided env scopes tree) := by
  induction h with
  | int value => exact ⟨computed_int value, nofun⟩
  | bool value => exact ⟨computed_bool value, fun _ => decided_bool value⟩
  | readLocal hty =>
    refine ⟨computed_readLocal hty, ?_⟩
    rintro rfl
    exact (computed_readLocal hty).decided rfl
  | arith hop _ _ ihleft ihright => exact ⟨ihleft.1.arith hop ihright.1, nofun⟩
  | compare htype _ ihleft ihright =>
    exact ⟨ihleft.1.compare htype ihright.1,
      fun _ => (ihleft.1.compare htype ihright.1).decided rfl⟩
  | @logical op left right _ _ ihleft ihright =>
    have hdecided : image.Decided env scopes (.logical op left right) :=
      (ihleft.2 rfl).logical (ihright.2 rfl)
    exact ⟨hdecided.computed, fun _ => hdecided⟩
  | not _ ih => exact ⟨ih.1.not, fun _ => (ih.2 rfl).not⟩

end Image

end StackLowering
