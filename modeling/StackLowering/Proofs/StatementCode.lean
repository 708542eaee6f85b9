import StackLowering.Proofs.ExpressionCode
/-!
The code of statements. By induction on a structured tree, whatever lowers it
performs it: the machine goes through the same variables, writes and transfers
as the evaluation of the tree.
-/

namespace StackLowering

variable {value : Tree} {name : String} {ty : Ty} {vars : Variables}

namespace Lowering

theorem AddsConstant.eval? {delta : Int} {x : Int32} (h : AddsConstant name value delta)
    (hx : vars.lookup? name = some (.int x)) :
    value.eval? vars = some (.int (x + Int32.ofInt delta)) := by
  cases h <;> simp [Tree.eval?, ArithOp.onInts?, hx, Value.int?, Int32.add_comm, Int32.ofInt_neg,
    Int32.sub_eq_add_neg]

end Lowering

namespace Lowers

variable {env : Env} {s s' : State}

/-- Where values are discarded, trees are lowered as statements. -/
theorem statements {trees : List Tree} (h : Lowers env (.seq (trees.map .tree)) s s')
    (hdepth : s.expressionDepth = 0) : Lowers env (.seq (trees.map .statement)) s s' := by
  induction trees generalizing s with
  | nil =>
    cases h
    exact .nil
  | cons tree rest ih =>
    cases h with
    | @cons _ _ _ m _ htree hrest =>
      have hkept : m.expressionDepth = 0 := htree.keeps.depth.trans hdepth
      have hstart : s.withDepth 0 = s := by
        rw [State.withDepth, ← hdepth]
      have hend : m.withDepth s.expressionDepth = m := by
        rw [State.withDepth, hdepth, ← hkept]
      have hstatement := Lowers.statement (hstart.symm ▸ htree)
      rw [hend] at hstatement
      exact .cons hstatement (ih hrest hkept)

theorem block_inv {trees : List Tree} (h : Lowers env (.tree (.block trees)) s s')
    (hdepth : s.expressionDepth = 0) : Lowers env (.seq (trees.map .statement)) s s' := by
  cases h with
  | block htrees => exact htrees.statements hdepth
  | operation hother => cases hother.not_isControl
  | bridged hother | rewritten hother | leave hother => cases hother

theorem declareLocal_inv (h : Lowers env (.tree (.declareLocal name ty (some value))) s s') :
    ∃ ty' slot slots m, Resolves env s ty ty' ∧ Lowers env (.value value) s m ∧
      m.slots.declare name ty' = (.ok slot, slots) ∧
      s' = (m.withSlots slots).emits (.setLocal slot) := by
  cases h with
  | initialized hty hvalue hslot => exact ⟨_, _, _, _, hty, hvalue, hslot, rfl⟩
  | operation hother => cases hother.not_isControl
  | bridged hother | rewritten hother | leave hother => cases hother

theorem cleanups_inv {start : Nat} (h : Lowers env (.cleanups start) s s')
    (hcleanups : s.cleanups = []) : s' = s := by
  cases h with
  | cleanups hcopies =>
    have hnone : cleanupJobs start s.cleanups.length = [] := by
      simp [cleanupJobs, hcleanups]
    rw [hnone] at hcopies
    cases hcopies
    rfl

theorem branch_inv {condition body : Tree} {otherwise : Option Tree}
    (h : Lowers env (.tree (.branch condition body otherwise)) s s')
    (hbody : body.endsWithRedirect = false) :
    ∃ m₁ m₂ m₃, Lowers env
        (.jumpIf condition false (if otherwise.isSome then s.label 2 else s.label 3))
        ((s.newLabels 4).emits (.bind (s.label 0))) m₁ ∧
      Lowers env (.inScope body) (m₁.emits (.bind (s.label 1))) m₂ ∧
      Lowers env (.otherwise (s.label 2) (s.label 3) otherwise) m₂ m₃ ∧
      s' = m₃.emits (.bind (s.label 3)) := by
  cases h with
  | branch hmiss hcondition hinner hdetour hotherwise =>
    cases hmiss with
    | plain =>
      cases hdetour
      exact ⟨_, _, _, hcondition, hinner, hotherwise, rfl⟩
    | direct hends | detour hends =>
      rw [hbody] at hends
      cases hends
  | operation hother => cases hother.not_isControl
  | bridged hother | rewritten hother | leave hother => cases hother

theorem returnVoid_inv (h : Lowers env (.tree (.ret none)) s s') :
    ∃ m, Lowers env (.cleanups 0) s m ∧ s' = m.emits (.op .returnVoid) := by
  cases h with
  | returnVoid hcleanups => exact ⟨_, hcleanups, rfl⟩
  | operation hother => cases hother.not_isControl
  | bridged hother | rewritten hother | leave hother => cases hother

end Lowers

theorem State.offset_exitScope (s : State) : s.exitScope.offset = s.offset := by
  have hcall : Call.exitFrame.instruction? s.exitSlotScope.assembler.pool = none := rfl
  exact offset_emits hcall

theorem State.Pending.context {s s' : State} {label : Label} (h : s.Pending label)
    (hassembler : s'.assembler = s.assembler) : s'.Pending label := by
  obtain ⟨hknown, hunbound⟩ := h
  rw [labelCount, ← hassembler] at hknown
  rw [← hassembler] at hunbound
  exact ⟨hknown, hunbound⟩

theorem State.label_ne (s : State) {index other : Nat} (h : index ≠ other) :
    s.label index ≠ s.label other := by
  intro heq
  have hid : s.assembler.positions.size + index = s.assembler.positions.size + other :=
    congrArg Label.id heq
  omega

/-- The state in which the body of a loop is lowered. -/
abbrev State.beginBody (s : State) (labels : Lowering.LoopLabels) (label : Option String)
    (next : Label) : State :=
  (s.pushFlow (labels.flow label next)).emits (.bind labels.body)

/-- New labels for a loop, and a jump to its test. -/
abbrev State.jumpToTest (s : State) : State :=
  (s.newLabels 4).emits (.jump .jump s.loopLabels.condition)

theorem State.pending_jumpToTest (s : State) {index : Nat} (hindex : index < 4) :
    s.jumpToTest.Pending (s.label index) :=
  (s.pending_newLabels hindex).emits rfl

theorem Tree.HasType.exec_eq {tree : Tree} (h : tree.HasType ty) :
    tree.exec = fun _ store => store.withValue tree fun _ => (.normal, store) := by
  funext fuel store
  cases h <;> rw [Tree.exec] <;> nofun

theorem Tree.lastRedirects_eq_false {trees : List Tree}
    (h : ∀ tree ∈ trees, tree.endsWithRedirect = false) : lastRedirects trees = false := by
  induction trees with
  | nil => rfl
  | cons tree rest ih =>
    obtain ⟨htree, hothers⟩ := List.forall_mem_cons.mp h
    rw [lastRedirects, htree, ih hothers, ite_self]

theorem Tree.Structured.endsWithRedirect_eq_false {result : Ty} {tree : Tree}
    (h : tree.Structured result) : tree.endsWithRedirect = false := by
  induction h with
  | expression htype => cases htype <;> rfl
  | block _ ih => exact lastRedirects_eq_false ih
  | _ => rfl

namespace Image

variable {image : Image} {env : Env} {result : Ty} {s m s' : State} {tree : Tree}

/-- The code performs an action and comes out of it, in any way, with the same scopes. -/
abbrev Stays (image : Image) (flows : Flows) (scopes : ScopeStack)
    (action : Nat → Store → Execution) (start stop : Nat) : Prop :=
  image.Performs flows action (image.Frame scopes) (image.Frame scopes) (image.Frame scopes)
    start stop

theorem Performs.outer {flows : Flows} {scope : List SlotEntry} {outer : ScopeStack}
    {action : Nat → Store → Execution} {start stop : Nat}
    (h : image.Stays flows (scope :: outer) action start stop) :
    image.Performs flows action (image.Frame (scope :: outer)) (image.Frame (scope :: outer))
      (image.Outer outer) start stop :=
  h.weaken (fun _ _ => id) (fun _ _ => id) fun _ _ => Frame.outer

/-- A point of the lowering of a routine with this result. -/
structure Hosts (image : Image) (env : Env) (result : Ty) (s : State) : Prop where
  passes : image.Passes s
  result : s.result = result
  cleanups : s.cleanups = []
  records : ∀ {owner owner' : Ty}, Resolves env s owner owner' → ∀ (name : String) (value : Value),
    image.records ⟨owner, name, value⟩ (Digest.ofField owner'.digest name, value.cell)

theorem Hosts.move (h : image.Hosts env result s) (hpasses : image.Passes s')
    (hdata : s'.data = s.data) (hcleanups : s'.cleanups = s.cleanups) :
    image.Hosts env result s' where
  passes := hpasses
  result := by
    rw [← h.result, State.result, State.result, State.routine?, State.routine?, hdata]
  cleanups := hcleanups.trans h.cleanups
  records hresolves := by
    apply h.records
    rw [Resolves, State.currentType, hdata] at hresolves
    exact hresolves

theorem Hosts.keeps (h : image.Hosts env result s) (hkeeps : s.Keeps s')
    (hpasses : image.Passes s') : image.Hosts env result s' :=
  h.move hpasses hkeeps.data hkeeps.cleanups

/-- Whatever lowers the statement performs it. It keeps the scopes around it. -/
def Executed (image : Image) (env : Env) (result : Ty) (tree : Tree) : Prop :=
  ∀ ⦃s s' : State⦄ ⦃scope : List SlotEntry⦄ ⦃outer : ScopeStack⦄, Lowers env (.tree tree) s s' →
    s.expressionDepth = 0 → image.Hosts env result s → image.Hosts env result s' →
    s.slots.Represents (scope :: outer) →
    ∃ scope', s'.slots.Represents (scope' :: outer) ∧
      image.Performs s.flows tree.exec (image.Frame (scope :: outer))
        (image.Frame (scope' :: outer)) (image.Outer outer) s.offset s'.offset

/-- Whatever lowers the statement performs it. It declares nothing and is left by
no transfer. -/
def Updated (image : Image) (env : Env) (result : Ty) (tree : Tree) : Prop :=
  ∀ ⦃s s' : State⦄ ⦃scopes : ScopeStack⦄, Lowers env (.tree tree) s s' →
    s.expressionDepth = 0 → image.Hosts env result s → image.Hosts env result s' →
    s.slots.Represents scopes →
    s'.slots = s.slots ∧ ∀ flows abrupt, image.Performs flows tree.exec (image.Frame scopes)
      (image.Frame scopes) abrupt s.offset s'.offset

theorem Updated.executed (h : image.Updated env result tree) :
    image.Executed env result tree := by
  intro s s' scope outer hlowers hdepth hs hs' hscopes
  obtain ⟨hslots, hperforms⟩ := h hlowers hdepth hs hs' hscopes
  exact ⟨scope, hslots ▸ hscopes, hperforms s.flows _⟩

theorem updated_expression (htype : tree.HasType ty) :
    image.Updated env result tree := by
  intro s s' scopes hlowers hdepth hs hs' hscopes
  obtain ⟨m, rfl, hm, hyields⟩ :=
    (computed_of_hasType htype).1 hlowers hs.passes hs'.passes hscopes
  have hpop : m.discard ty = m.emits (.pop 1) := by
    have hkept : (m.discard ty).expressionDepth = 0 := hlowers.keeps.depth.trans hdepth
    have hwidth : ty.width = 1 := by
      rcases htype.eq_int_or_bool with rfl | rfl <;> rfl
    unfold State.discard at hkept ⊢
    rw [hwidth]
    split_ifs at hkept ⊢ with hused
    · rw [State.isValueUsed, hkept] at hused
      cases hused
    · rfl
  have hafter := hs'.passes
  rw [hpop] at hafter ⊢
  refine ⟨hyields.slots, fun flows abrupt => ?_⟩
  rw [htype.exec_eq]
  exact performs_pop hyields.computes (hm.read hafter trivial rfl)

theorem updated_nothing : image.Updated env result .nothing := by
  intro s s' scopes hlowers _ _ _ _
  cases hlowers with
  | bridged hother | rewritten hother | leave hother => cases hother
  | operation hoperation hoperands =>
    cases hoperation with
    | access haccess => cases haccess
    | nothing =>
      cases hoperands
      rw [State.discard_void]
      exact ⟨rfl, fun flows abrupt => performs_skip.congr fun _ _ => by rw [Tree.exec]⟩

theorem updated_assignLocal (htype : value.HasType ty) :
    image.Updated env result (.assignLocal name ty value) := by
  intro s s' scopes hlowers _ hs hs' hscopes
  cases hlowers with
  | bridged hother | rewritten hother | leave hother => cases hother
  | operation hoperation hoperands =>
    cases hoperation with
    | access haccess => cases haccess
    | increment hresolves hslot _ hdelta =>
      cases hoperands
      rw [State.discard_void] at hs' ⊢
      obtain ⟨binding, hbinding, rfl, rfl⟩ := Slots.require_eq_ok.mp hslot
      rw [hscopes.bindings] at hbinding
      obtain ⟨hint, hadds⟩ := Lowering.fusedDelta?_eq_some.mp hdelta
      refine ⟨rfl, fun flows abrupt => (performs_increment (hs.passes.read hs'.passes trivial rfl)
        hscopes hbinding hint ?_).congr fun _ _ => by rw [Tree.exec]⟩
      exact fun vars x hx => hadds.eval? hx
    | assignLocal hresolves hslot =>
      cases hoperands with
      | cons hvalue hnil =>
        cases hnil
        rw [State.discard_void] at hs' ⊢
        obtain rfl := hresolves.eq_of_plain htype.eq_int_or_bool
        have hlists := hs.passes.valid.lists_of_require hslot
        obtain ⟨binding, hbinding, rfl, rfl⟩ := Slots.require_eq_ok.mp hslot
        rw [hscopes.bindings] at hbinding
        have hkept := ((hvalue.leads rfl).reaches hs.passes.valid).lists hlists
        have hm := hs.passes.between hs'.passes (hvalue.leads rfl) (.step (fun _ => hkept) nofun)
        have hyields := (computed_of_hasType htype).1.value hvalue hs.passes hm hscopes
        refine ⟨hyields.slots, fun flows abrupt => ?_⟩
        exact (performs_assign hyields.computes (hm.read hs'.passes trivial rfl)
          (hs.passes.frame hlists) hscopes hbinding).congr fun _ _ => by rw [Tree.exec]

theorem updated_writeStatic {owner : Ty} (htype : value.HasType ty) :
    image.Updated env result (.writeField owner name ty none value) := by
  intro s s' scopes hlowers _ hs hs' hscopes
  cases hlowers with
  | bridged hother | rewritten hother | leave hother => cases hother
  | operation hoperation hoperands =>
    cases hoperation with
    | access haccess => cases haccess
    | @writeField _ owner' _ _ _ _ howner =>
      cases hoperands with
      | cons hvalue hnil =>
        cases hnil
        rw [State.discard_void] at hs' ⊢
        have hplain : (Call.digest .setStatic (Digest.ofField owner'.digest name)).Plain :=
          fun _ => rfl
        have hm := hs.passes.between hs'.passes (hvalue.leads rfl) (.emits hplain rfl)
        have hyields := (computed_of_hasType htype).1.value hvalue hs.passes hm hscopes
        obtain ⟨hindex, hfield⟩ := hs'.passes.constant rfl
        refine ⟨hyields.slots, fun flows abrupt => (performs_write hyields.computes
          (hm.read hs'.passes rfl rfl) ?_ (hs.records howner name)).congr fun _ _ => by
            rw [Tree.exec]⟩
        rwa [UInt16.toNat_ofNat_of_lt' hindex]

theorem executed_declareLocal (htype : value.HasType ty) :
    image.Executed env result (.declareLocal name ty (some value)) := by
  intro s s' scope outer hlowers _ hs hs' hscopes
  obtain ⟨ty', slot, slots, m, hresolves, hvalue, hslot, rfl⟩ := hlowers.declareLocal_inv
  obtain rfl := hresolves.eq_of_plain htype.eq_int_or_bool
  have hleads := hvalue.leads rfl
  have hvalid := (hleads.reaches hs.passes.valid).valid hs.passes.valid
  have hlists : slots.Lists slot := hvalid.lists_of_declare hslot
  have hset : (m.withSlots slots).Leads ((m.withSlots slots).emits (.setLocal slot)) :=
    .step (fun _ => hlists) nofun
  have hdeclare := State.Leads.declare hslot
  have hmiddle := hs.passes.between hs'.passes (hleads.trans hdeclare) hset
  have hm := hs.passes.between hmiddle hleads hdeclare
  have hyields := (computed_of_hasType htype).1.value hvalue hs.passes hm hscopes
  have hafter : slots.Represents (ScopeStack.declare ⟨name, ty', slot⟩ (scope :: outer)) := by
    apply Slots.Represents.declare hscopes
    rw [← hyields.slots]
    exact hslot
  refine ⟨_, hafter, ?_⟩
  exact (performs_declare hyields.computes (hmiddle.read hs'.passes trivial rfl)
    (hmiddle.frame hlists) hafter).congr fun _ _ => by rw [Tree.exec]

theorem executed_breakTo {label : Option String} : image.Executed env result (.breakTo label) := by
  intro s s' scope outer hlowers _ hs hs' hscopes
  cases hlowers with
  | operation hother => cases hother.not_isControl
  | bridged hother | rewritten hother => cases hother
  | leave hleaves hcleanups =>
    obtain rfl := hcleanups.cleanups_inv hs.cleanups
    cases hleaves with
    | breakTo hflow =>
      refine ⟨scope, hscopes, (performs_break hflow (hs.passes.read hs'.passes rfl rfl)
        fun _ _ => Frame.outer).congr fun _ _ => ?_⟩
      rw [Tree.exec]

theorem executed_continueTo {label : Option String} :
    image.Executed env result (.continueTo label) := by
  intro s s' scope outer hlowers _ hs hs' hscopes
  cases hlowers with
  | operation hother => cases hother.not_isControl
  | bridged hother | rewritten hother => cases hother
  | leave hleaves hcleanups =>
    obtain rfl := hcleanups.cleanups_inv hs.cleanups
    cases hleaves with
    | continueTo hflow =>
      refine ⟨scope, hscopes, (performs_continue hflow (hs.passes.read hs'.passes rfl rfl)
        fun _ _ => Frame.outer).congr fun _ _ => ?_⟩
      rw [Tree.exec]

theorem executed_returnVoid : image.Executed env result (.ret none) := by
  intro s s' scope outer hlowers _ hs hs' hscopes
  obtain ⟨m, hcleanups, rfl⟩ := hlowers.returnVoid_inv
  obtain rfl := hcleanups.cleanups_inv hs.cleanups
  refine ⟨scope, hscopes, (performs_returnVoid
    (hs.passes.read hs'.passes ⟨rfl, rfl⟩ rfl)).congr fun _ _ => ?_⟩
  rw [Tree.exec]

theorem executed_returnValue (htype : value.HasType result) :
    image.Executed env result (.ret (some value)) := by
  intro s s' scope outer hlowers _ hs hs' hscopes
  have hvoid : result.isVoid = false := by
    rcases htype.eq_int_or_bool with rfl | rfl <;> rfl
  cases hlowers with
  | operation hother => cases hother.not_isControl
  | bridged hother | rewritten hother | leave hother => cases hother
  | returnSaved _ hvalue hpending =>
    exact absurd (hvalue.keeps.cleanups.trans hs.cleanups) hpending
  | @returnValue _ ty _ m hty hvalue =>
    obtain rfl : ty = result := by
      rw [ReturnType, hs.result, hvoid] at hty
      exact hty
    have hplain : (Call.ret ty).Plain := fun _ => trivial
    have hm := hs.passes.between hs'.passes (hvalue.leads rfl) (.emits hplain rfl)
    have hyields := (computed_of_hasType htype).1.value hvalue hs.passes hm hscopes
    have hinstr : (Call.ret ty).instruction? m.assembler.pool = some (.returnValue, .none) := by
      rw [Call.instruction?, hvoid]
      rfl
    refine ⟨scope, hyields.slots ▸ hscopes, (performs_returnValue hyields.computes
      (hm.read hs'.passes trivial hinstr)).congr fun _ _ => ?_⟩
    rw [Tree.exec]

section Sequences

variable {scope : List SlotEntry} {outer scopes : ScopeStack} {trees : List Tree}

/-- A statement is lowered where values are discarded. -/
theorem Hosts.statement_inv (hlowers : Lowers env (.statement tree) s s')
    (hs : image.Hosts env result s) (hs' : image.Hosts env result s') :
    ∃ m, Lowers env (.tree tree) (s.withDepth 0) m ∧ image.Hosts env result (s.withDepth 0) ∧
      image.Hosts env result m ∧ s' = m.withDepth s.expressionDepth := by
  cases hlowers with
  | @statement _ _ m htree =>
    exact ⟨m, htree, hs.move (hs.passes.congr rfl rfl) rfl rfl,
      hs'.move (hs'.passes.congr rfl rfl) rfl rfl, rfl⟩

theorem Executed.statement (h : image.Executed env result tree)
    (hlowers : Lowers env (.statement tree) s s') (hs : image.Hosts env result s)
    (hs' : image.Hosts env result s') (hscopes : s.slots.Represents (scope :: outer)) :
    ∃ scope', s'.slots.Represents (scope' :: outer) ∧
      image.Performs s.flows tree.exec (image.Frame (scope :: outer))
        (image.Frame (scope' :: outer)) (image.Outer outer) s.offset s'.offset := by
  obtain ⟨m, htree, hstart, hend, rfl⟩ := hs.statement_inv hlowers hs'
  have hperforms := h htree rfl hstart hend hscopes
  exact hperforms

theorem Updated.statement (h : image.Updated env result tree)
    (hlowers : Lowers env (.statement tree) s s') (hs : image.Hosts env result s)
    (hs' : image.Hosts env result s') (hscopes : s.slots.Represents scopes) :
    s'.slots = s.slots ∧ ∀ flows abrupt, image.Performs flows tree.exec (image.Frame scopes)
      (image.Frame scopes) abrupt s.offset s'.offset := by
  obtain ⟨m, htree, hstart, hend, rfl⟩ := hs.statement_inv hlowers hs'
  have hperforms := h htree rfl hstart hend hscopes
  exact hperforms

theorem execAll_nil : Tree.execAll [] = fun _ store => (.normal, store) := by
  funext fuel store
  rw [Tree.execAll]

theorem execAll_cons (tree : Tree) (rest : List Tree) : Tree.execAll (tree :: rest) =
    fun fuel store => (tree.exec fuel store).andThen (Tree.execAll rest fuel) := by
  funext fuel store
  rw [Tree.execAll]

theorem Hosts.between_statements {rest : List Tree} (hs : image.Hosts env result s)
    (hs' : image.Hosts env result s') (hfirst : Lowers env (.statement tree) s m)
    (hrest : Lowers env (.seq (rest.map .statement)) m s') : image.Hosts env result m := by
  have hbinds : Job.binds (.seq (rest.map .statement)) = [] := Job.bindsAll_map (fun _ => rfl) rest
  exact hs.keeps hfirst.keeps
    (hs.passes.between hs'.passes (hfirst.leads rfl) (hrest.leads hbinds))

/-- Statements one after the other. -/
theorem performs_statements (h : ∀ tree ∈ trees, image.Executed env result tree)
    (hlowers : Lowers env (.seq (trees.map .statement)) s s') (hs : image.Hosts env result s)
    (hs' : image.Hosts env result s') (hscopes : s.slots.Represents (scope :: outer)) :
    ∃ scope', s'.slots.Represents (scope' :: outer) ∧
      image.Performs s.flows (Tree.execAll trees) (image.Frame (scope :: outer))
        (image.Frame (scope' :: outer)) (image.Outer outer) s.offset s'.offset := by
  induction trees generalizing s scope with
  | nil =>
    cases hlowers
    rw [execAll_nil]
    exact ⟨scope, hscopes, performs_skip⟩
  | cons tree rest ih =>
    obtain ⟨htree, hothers⟩ := List.forall_mem_cons.mp h
    cases hlowers with
    | cons hfirst hrest =>
      have hm := hs.between_statements hs' hfirst hrest
      obtain ⟨middle, hmiddle, hperforms⟩ := htree.statement hfirst hs hm hscopes
      obtain ⟨last, hlast, hperforms'⟩ := ih hothers hrest hm hmiddle
      rw [hfirst.keeps.flows] at hperforms'
      rw [execAll_cons]
      exact ⟨last, hlast, hperforms.andThen hperforms'⟩

theorem performs_updates (h : ∀ tree ∈ trees, image.Updated env result tree)
    (hlowers : Lowers env (.seq (trees.map .statement)) s s') (hs : image.Hosts env result s)
    (hs' : image.Hosts env result s') (hscopes : s.slots.Represents scopes) :
    s'.slots = s.slots ∧ ∀ flows abrupt, image.Performs flows (Tree.execAll trees)
      (image.Frame scopes) (image.Frame scopes) abrupt s.offset s'.offset := by
  induction trees generalizing s with
  | nil =>
    cases hlowers
    rw [execAll_nil]
    exact ⟨rfl, fun _ _ => performs_skip⟩
  | cons tree rest ih =>
    obtain ⟨htree, hothers⟩ := List.forall_mem_cons.mp h
    cases hlowers with
    | cons hfirst hrest =>
      have hm := hs.between_statements hs' hfirst hrest
      obtain ⟨hslots, hperforms⟩ := htree.statement hfirst hs hm hscopes
      obtain ⟨hslots', hperforms'⟩ := ih hothers hrest hm (hslots ▸ hscopes)
      rw [execAll_cons]
      exact ⟨hslots'.trans hslots,
        fun flows abrupt => (hperforms flows abrupt).andThen (hperforms' flows abrupt)⟩

theorem executed_block (h : ∀ tree ∈ trees, image.Executed env result tree) :
    image.Executed env result (.block trees) := by
  intro s s' scope outer hlowers hdepth hs hs' hscopes
  obtain ⟨scope', hscopes', hperforms⟩ :=
    performs_statements h (hlowers.block_inv hdepth) hs hs' hscopes
  exact ⟨scope', hscopes', hperforms.congr fun _ _ => by rw [Tree.exec]⟩

/-- A statement in a scope of its own. -/
theorem Executed.inScope (h : image.Executed env result tree)
    (hlowers : Lowers env (.inScope tree) s s') (hs : image.Hosts env result s)
    (hs' : image.Hosts env result s') (hscopes : s.slots.Represents (scope :: outer)) :
    s'.slots.Represents (scope :: outer) ∧
      image.Stays s.flows (scope :: outer) (fun fuel => Store.inScope (tree.exec fuel)) s.offset
        s'.offset := by
  cases hlowers with
  | @inScope _ _ m htree =>
    have henter := State.Leads.enterScope s
    have hexit := State.Leads.exitScope m
    have hpasses := hs.passes.between hs'.passes henter ((htree.leads rfl).trans hexit)
    have hstart : image.Hosts env result s.enterScope := hs.move hpasses rfl rfl
    have hend : image.Hosts env result m :=
      hstart.keeps htree.keeps (hpasses.between hs'.passes (htree.leads rfl) hexit)
    obtain ⟨inner, hinner, hperforms⟩ := h.statement htree hstart hend hscopes.pushScope
    refine ⟨hinner.popScope (List.cons_ne_nil _ _), ?_⟩
    rw [State.offset_exitScope]
    exact hperforms.inScope rfl

end Sequences

section Branches

variable {condition body : Tree} {scope : List SlotEntry} {outer : ScopeStack}

section

variable {miss : Label} {m₁ m₂ : State}
  (hcondition : Lowers env (.jumpIf condition false miss)
    ((s.newLabels 4).emits (.bind (s.label 0))) m₁)
  (hinner : Lowers env (.inScope body) (m₁.emits (.bind (s.label 1))) m₂)

include hcondition hinner

theorem branch_pending {index : Nat} (hindex : index < 4) (hbehind : 1 < index) :
    m₂.Pending (s.label index) := by
  have hfirst : ((s.newLabels 4).emits (.bind (s.label 0))).Pending (s.label index) :=
    (s.pending_newLabels hindex).bind (s.label_ne (by omega))
  have hsecond : (m₁.emits (.bind (s.label 1))).Pending (s.label index) :=
    (hcondition.pending rfl hfirst).bind (s.label_ne (by omega))
  exact hinner.pending rfl hsecond

/-- The code of a branch up to the end of its body. -/
theorem performs_condition (htype : condition.HasType Ty.bool)
    (hbody : image.Executed env result body) (hs : image.Hosts env result s)
    (hs' : image.Hosts env result s') (hrest : m₂.Leads s')
    (hscopes : s.slots.Represents (scope :: outer)) :
    image.Hosts env result m₂ ∧ m₂.slots.Represents (scope :: outer) ∧ m₂.flows = s.flows ∧
      image.program.Tests (scope :: outer) condition false (image.position miss) s.offset
        m₁.offset ∧
      image.Stays s.flows (scope :: outer) (fun fuel => Store.inScope (body.exec fuel)) m₁.offset
        m₂.offset := by
  have hfirst : (s.newLabels 4).Pending (s.label 0) := s.pending_newLabels (by omega)
  have hsecond : ((s.newLabels 4).emits (.bind (s.label 0))).Pending (s.label 1) :=
    (s.pending_newLabels (by omega)).bind (s.label_ne (by omega))
  have hstart := (State.Leads.newLabels 4 s).trans (.bind hfirst)
  have hbind := State.Leads.bind (hcondition.pending rfl hsecond)
  have hpasses₂ := hs.passes.between hs'.passes
    (hstart.trans ((hcondition.leads rfl).trans (hbind.trans (hinner.leads rfl)))) hrest
  have hmiddle := hs.passes.between hpasses₂ (hstart.trans ((hcondition.leads rfl).trans hbind))
    (hinner.leads rfl)
  have hpasses₁ := hs.passes.between hmiddle (hstart.trans (hcondition.leads rfl)) hbind
  have hpasses := hs.passes.between hpasses₁ hstart (hcondition.leads rfl)
  have hkept : s.Keeps (m₁.emits (.bind (s.label 1))) :=
    ((((State.Keeps.refl s).newLabels 4).emits (.bind (s.label 0))).trans hcondition.keeps).emits _
  have hdecides := (computed_of_hasType htype).2 rfl hcondition hpasses hpasses₁
    ((s.slots_newLabels 4).symm ▸ hscopes)
  have hslots : m₁.slots = s.slots := hdecides.slots.trans (s.slots_newLabels 4)
  have htests := hdecides.tests
  rw [State.offset_emits rfl, s.offset_newLabels 4] at htests
  have hm₂ := hs.keeps (hkept.trans hinner.keeps) hpasses₂
  obtain ⟨hscopes₂, hperforms⟩ := hbody.inScope hinner (hs.keeps hkept hmiddle) hm₂
    (hslots.symm ▸ hscopes)
  rw [State.offset_emits rfl, hkept.flows] at hperforms
  exact ⟨hm₂, hscopes₂, (hkept.trans hinner.keeps).flows, htests, hperforms⟩

end

theorem exec_branch {otherwise : Option Tree} (fuel : Nat) (store : Store) (value : Bool)
    (h : store.test? condition = some value) :
    (Tree.branch condition body otherwise).exec fuel store =
      if value then Store.inScope (body.exec fuel) store
      else Tree.execOptional otherwise fuel store := by
  rw [Tree.exec, h]
  cases value <;> rfl

/-- A branch without an other side. -/
theorem executed_when (htype : condition.HasType Ty.bool) (hbody : image.Executed env result body)
    (hredirect : body.endsWithRedirect = false) :
    image.Executed env result (.branch condition body none) := by
  intro s s' scope outer hlowers _ hs hs' hscopes
  obtain ⟨m₁, m₂, m₃, hcondition, hinner, hotherwise, rfl⟩ := hlowers.branch_inv hredirect
  cases hotherwise
  have hpending : m₂.Pending (s.label 3) := branch_pending hcondition hinner (by omega) (by omega)
  obtain ⟨hm₂, hscopes₂, _, htests, hperforms⟩ := performs_condition hcondition hinner htype hbody
    hs hs' (.bind hpending) hscopes
  have hdone : image.position (s.label 3) = m₂.offset := hs'.passes.position_bind hpending.known
  have htarget : (if (none : Option Tree).isSome then s.label 2 else s.label 3) = s.label 3 := rfl
  rw [htarget, hdone] at htests
  have hskip : image.Stays s.flows (scope :: outer) (Tree.execOptional none) m₂.offset
      m₂.offset := performs_skip.congr fun _ _ => by rw [Tree.execOptional]
  rw [State.offset_emits rfl]
  have hbranch := performs_branch exec_branch htests hperforms hskip
  exact ⟨scope, hscopes₂, hbranch.outer⟩

/-- A branch with two sides. -/
theorem executed_either {otherwise : Tree} (htype : condition.HasType Ty.bool)
    (hbody : image.Executed env result body) (hredirect : body.endsWithRedirect = false)
    (hother : image.Executed env result otherwise) :
    image.Executed env result (.branch condition body (some otherwise)) := by
  intro s s' scope outer hlowers _ hs hs' hscopes
  obtain ⟨m₁, m₂, m₃, hcondition, hinner, hotherwise, rfl⟩ := hlowers.branch_inv hredirect
  cases hotherwise with
  | hasElse hsecond =>
    have htree : Lowers env (.inScope otherwise)
      ((m₂.emits (.jump .jump (s.label 3))).emits (.bind (s.label 2))) m₃ := hsecond
    have helse : m₂.Pending (s.label 2) :=
      branch_pending hcondition hinner (by omega) (by omega)
    have hdone : m₂.Pending (s.label 3) :=
      branch_pending hcondition hinner (by omega) (by omega)
    have hlast : m₃.Pending (s.label 3) :=
      htree.pending rfl ((hdone.emits rfl).bind (s.label_ne (by omega)))
    -- Behind the body comes a jump to the end, and then the other side.
    have hjump : m₂.Leads (m₂.emits (.jump .jump (s.label 3))) := .jump (s.label 3)
    have hbind : (m₂.emits (.jump .jump (s.label 3))).Leads
        ((m₂.emits (.jump .jump (s.label 3))).emits (.bind (s.label 2))) :=
      .bind (helse.emits rfl)
    have hend := (htree.leads rfl).trans (.bind hlast)
    obtain ⟨hm₂, hscopes₂, hflows, htests, hperforms⟩ := performs_condition hcondition hinner
      htype hbody hs hs' (hjump.trans (hbind.trans hend)) hscopes
    have hstart := hm₂.passes.between hs'.passes (hjump.trans hbind) hend
    have hjumped := hm₂.passes.between hstart hjump hbind
    have hm₃ := hstart.between hs'.passes (htree.leads rfl) (.bind hlast)
    have hhosts := hm₂.move hstart rfl rfl
    obtain ⟨hscopes₃, hperforms'⟩ := hother.inScope htree hhosts
      (hhosts.keeps htree.keeps hm₃) hscopes₂
    have helseAt : image.position (s.label 2) = (m₂.emits (.jump .jump (s.label 3))).offset :=
      hstart.position_bind (helse.emits rfl).known
    have hdoneAt : image.position (s.label 3) = m₃.offset := hs'.passes.position_bind hlast.known
    have hover : image.program.At m₂.offset .jump (.jump m₃.offset)
        (m₂.emits (.jump .jump (s.label 3))).offset := by
      rw [← hdoneAt]
      exact hm₂.passes.read hjumped rfl rfl
    have htarget : (if (some otherwise).isSome then s.label 2 else s.label 3) = s.label 2 := rfl
    rw [htarget, helseAt] at htests
    have hflows' : ((m₂.emits (.jump .jump (s.label 3))).emits (.bind (s.label 2))).flows =
        s.flows := hflows
    rw [hflows', State.offset_emits rfl] at hperforms'
    rw [State.offset_emits rfl]
    have hsecond : image.Stays s.flows (scope :: outer) (Tree.execOptional (some otherwise)) _ _ :=
      hperforms'.congr fun _ _ => by rw [Tree.execOptional]
    have hbranch := performs_branch exec_branch htests (hperforms.jumpFrom hover) hsecond
    exact ⟨scope, hscopes₃, hbranch.outer⟩

end Branches

section Loops

variable {label : Option String} {condition body : Tree} {scope : List SlotEntry}
  {outer : ScopeStack}

theorem repeats_of_tests {scopes : ScopeStack} {start middle stop : Nat}
    (h : image.program.Tests scopes condition true start middle stop) :
    image.Repeats (image.Frame scopes) (·.test? condition) start middle stop := by
  intro store locals log hstore
  obtain ⟨value, steps, hvalue, hsteps, hrun⟩ := h store.vars locals [] log hstore.1
  have htested : store.test? condition = some value := by
    rw [Store.test?, Store.eval?, hvalue]
    rfl
  exact ⟨value, steps, htested, hsteps, hrun⟩

/-- The test of a loop that need not have a condition. -/
theorem repeats_loopTest {condition : Option Tree} {target : Label} {scopes : ScopeStack}
    (htype : ∀ tree ∈ condition, tree.HasType Ty.bool)
    (hlowers : Lowers env (.loopTest condition target) s s') (hs : image.Passes s)
    (hs' : image.Passes s') (hscopes : s.slots.Represents scopes) :
    s'.slots = s.slots ∧
      image.Repeats (image.Frame scopes) (fun store => condition.elim (some true) store.test?)
        (image.position target) s.offset s'.offset := by
  cases hlowers with
  | tested hcondition =>
    have hdecides := (computed_of_hasType (htype _ rfl)).2 rfl hcondition hs hs' hscopes
    exact ⟨hdecides.slots, repeats_of_tests hdecides.tests⟩
  | endless =>
    have hjump : image.program.At s.offset .jump (.jump (image.position target))
      (s.emits (.jump .jump target)).offset := hs.read hs' rfl rfl
    refine ⟨rfl, fun store locals log _ => ⟨true, 1, rfl, fun _ => Nat.one_pos, ?_⟩⟩
    exact (Program.run_one _ _).trans hjump.step_jump

/-- The lowering of a loop whose labels are made in `s`, from the body on. Behind the
body comes a tail, and then the test. -/
structure Loop (env : Env) (s : State) (label : Option String) (next : Label)
    (condition : Option Tree) (body : Tree) (a m₁ m₂ m₃ : State) : Prop where
  lowers : Lowers env (.inScope body) (a.beginBody s.loopLabels label next) m₁
  pending : ∀ {index : Nat}, index < 4 → a.Pending (s.label index)
  tail : m₁.Leads m₂
  kept : m₁.Keeps m₂
  tailPending : ∀ {index : Nat}, index ≠ 2 → m₁.Pending (s.label index) →
    m₂.Pending (s.label index)
  test : Lowers env (.loopTest condition s.loopLabels.body)
    (m₂.popFlow.emits (.bind s.loopLabels.condition)) m₃

/-- The code of the tail of a loop. Its start is where `continue` leads to. -/
def Continues (image : Image) (env : Env) (result : Ty) (scopes : ScopeStack)
    (labels : Lowering.LoopLabels) (next : Label) (tail : Nat → Store → Execution)
    (m₁ m₂ : State) : Prop :=
  image.Hosts env result m₁ → image.Hosts env result m₂ → m₁.slots.Represents scopes →
    image.position labels.condition = m₂.offset → m₂.slots = m₁.slots ∧
      image.position next = m₁.offset ∧
      ∀ flows, image.Stays flows scopes tail m₁.offset m₂.offset

/-- At the end of the body, the other labels still wait for their positions. -/
theorem pending_body {a : State} {next : Label}
    (h : Lowers env (.inScope body) (a.beginBody s.loopLabels label next) m)
    (hpending : ∀ {index : Nat}, index < 4 → a.Pending (s.label index)) {index : Nat}
    (hindex : index < 4) (hne : index ≠ 1) : m.Pending (s.label index) := by
  have hpushed : (a.pushFlow (s.loopLabels.flow label next)).Pending (s.label index) :=
    (hpending hindex).context rfl
  exact h.pending rfl (hpushed.bind (s.label_ne hne))

namespace Loop

variable {condition : Option Tree} {next : Label} {a m₁ m₂ m₃ : State}
  {tail : Nat → Store → Execution}

theorem ahead (h : Loop env s label next condition body a m₁ m₂ m₃) :
    a.Leads (a.beginBody s.loopLabels label next) ∧
    m₂.Leads (m₂.popFlow.emits (.bind s.loopLabels.condition)) ∧
    m₃.Leads (m₃.emits (.bind s.loopLabels.exit)) ∧
    m₂.Pending s.loopLabels.condition ∧ m₃.Pending s.loopLabels.exit := by
  have hbehind {index : Nat} (hindex : index < 4) (hne : index ≠ 1) (hne' : index ≠ 2) :=
    h.tailPending hne' (pending_body h.lowers h.pending hindex hne)
  have hcondition : m₂.Pending (s.label 0) := hbehind (by omega) (by omega) (by omega)
  have hexit : m₃.Pending (s.label 3) := by
    have hpopped : m₂.popFlow.Pending (s.label 3) :=
      (hbehind (by omega) (by omega) (by omega)).context rfl
    exact h.test.pending rfl (hpopped.bind (s.label_ne (by omega)))
  have hpush : a.Leads (a.pushFlow (s.loopLabels.flow label next)) := .context rfl
  have hpop : m₂.Leads m₂.popFlow := .context rfl
  exact ⟨hpush.trans (.bind ((h.pending (by omega)).context rfl)),
    hpop.trans (.bind (hcondition.context rfl)), .bind hexit, hcondition, hexit⟩

theorem leads (h : Loop env s label next condition body a m₁ m₂ m₃) :
    a.Leads (m₃.emits (.bind s.loopLabels.exit)) := by
  obtain ⟨hstart, hbottom, hend, _⟩ := h.ahead
  exact hstart.trans ((h.lowers.leads rfl).trans (h.tail.trans
    (hbottom.trans ((h.test.leads rfl).trans hend))))

/-- The parts of a loop: its body, and its rounds from the test on. -/
theorem rounds (h : Loop env s label next condition body a m₁ m₂ m₃)
    (htype : ∀ tree ∈ condition, tree.HasType Ty.bool) (hinner : image.Executed env result body)
    (hnext : image.Continues env result (scope :: outer) s.loopLabels next tail m₁ m₂)
    (ha : image.Hosts env result a)
    (hs' : image.Hosts env result (m₃.emits (.bind s.loopLabels.exit)))
    (hscopes : a.slots.Represents (scope :: outer)) :
    m₃.slots.Represents (scope :: outer) ∧
      image.position s.loopLabels.condition = m₂.offset ∧
      image.position s.loopLabels.exit = m₃.offset ∧
      image.Stays (s.loopLabels.flow label next :: a.flows) (scope :: outer)
        (fun fuel => Store.inScope (body.exec fuel)) a.offset (image.position next) ∧
      image.Stays a.flows (scope :: outer)
        (Store.rounds label (fun store => condition.elim (some true) store.test?)
          (fun fuel => Store.inScope (body.exec fuel)) tail) m₂.offset m₃.offset := by
  obtain ⟨hstart, hbottom, hend, hcondition, hexit⟩ := h.ahead
  -- What is ahead at each point of the loop, from the end back to the start.
  have hfromTest := (h.test.leads rfl).trans hend
  have hfromTail := h.tail.trans (hbottom.trans hfromTest)
  have htop := ha.passes.between hs'.passes hstart ((h.lowers.leads rfl).trans hfromTail)
  have hbodyEnd := htop.between hs'.passes (h.lowers.leads rfl) hfromTail
  have htailEnd := hbodyEnd.between hs'.passes h.tail (hbottom.trans hfromTest)
  have htestStart := htailEnd.between hs'.passes hbottom hfromTest
  have htestEnd := htestStart.between hs'.passes (h.test.leads rfl) hend
  -- The parts of the loop, and the labels where they begin.
  have hhosts : image.Hosts env result (a.beginBody s.loopLabels label next) :=
    ha.move htop rfl rfl
  have hhosts₁ := hhosts.keeps h.lowers.keeps hbodyEnd
  obtain ⟨hscopes₁, hperforms⟩ := hinner.inScope h.lowers hhosts hhosts₁ hscopes
  have hbodyAt : image.position s.loopLabels.body = a.offset :=
    htop.position_bind (h.pending (by omega)).known
  have hconditionAt : image.position s.loopLabels.condition = m₂.offset :=
    htestStart.position_bind hcondition.known
  have hexitAt := hs'.passes.position_bind hexit.known
  obtain ⟨hslots, hnextAt, htailed⟩ :=
    hnext hhosts₁ (hhosts₁.keeps h.kept htailEnd) hscopes₁ hconditionAt
  have hscopes₂ : m₂.slots.Represents (scope :: outer) := hslots.symm ▸ hscopes₁
  obtain ⟨hslots', hrepeats⟩ := repeats_loopTest htype h.test htestStart htestEnd hscopes₂
  rw [State.offset_emits rfl, hbodyAt] at hrepeats
  rw [State.offset_emits rfl, ← hnextAt] at hperforms
  rw [← hnextAt] at htailed
  exact ⟨hslots'.symm ▸ hscopes₂, hconditionAt, hexitAt, hperforms,
    performs_rounds (s.loopLabels.flow label next) rfl hexitAt hrepeats hperforms (htailed _)⟩

/-- A loop that begins with a jump to its test. -/
theorem fromTest (h : Loop env s label next condition body s.jumpToTest m₁ m₂ m₃)
    (htype : ∀ tree ∈ condition, tree.HasType Ty.bool) (hinner : image.Executed env result body)
    (hnext : image.Continues env result (scope :: outer) s.loopLabels next tail m₁ m₂)
    (hs : image.Hosts env result s)
    (hs' : image.Hosts env result (m₃.emits (.bind s.loopLabels.exit)))
    (hscopes : s.slots.Represents (scope :: outer)) :
    m₃.slots.Represents (scope :: outer) ∧ image.Stays s.flows (scope :: outer)
      (Store.rounds label (fun store => condition.elim (some true) store.test?)
        (fun fuel => Store.inScope (body.exec fuel)) tail) s.offset m₃.offset := by
  have hnew := State.Leads.newLabels 4 s
  have hjump : (s.newLabels 4).Leads s.jumpToTest := .jump _
  have hkept : s.Keeps s.jumpToTest := ((State.Keeps.refl s).newLabels 4).emits _
  have hjumped := hs.passes.between hs'.passes (hnew.trans hjump) h.leads
  obtain ⟨hscopes₃, hconditionAt, _, _, hrounds⟩ := h.rounds htype hinner hnext
    (hs.keeps hkept hjumped) hs' ((s.slots_newLabels 4).symm ▸ hscopes)
  have hjumpAt : image.program.At (s.newLabels 4).offset .jump (.jump m₂.offset)
      s.jumpToTest.offset := by
    rw [← hconditionAt]
    exact (hs.passes.between hjumped hnew hjump).read hjumped rfl rfl
  have hlooped := hrounds.jumpTo hjumpAt
  rw [s.offset_newLabels 4, hkept.flows] at hlooped
  exact ⟨hscopes₃, hlooped⟩

end Loop

theorem executed_whileLoop {bodyFirst : Bool} (htype : condition.HasType Ty.bool)
    (hinner : image.Executed env result body) :
    image.Executed env result (.whileLoop label condition body bodyFirst) := by
  intro s s' scope outer hlowers _ hs hs' hscopes
  cases hlowers with
  | operation hother => cases hother.not_isControl
  | bridged hother | rewritten hother | leave hother => cases hother
  | @whileLoop _ _ _ _ _ m₁ m₂ hbody htest => ?_
  have htype : ∀ tree ∈ some condition, tree.HasType Ty.bool := by
    rintro tree ⟨⟩
    exact htype
  -- nothing stands between the body and the test
  have hnext : image.Continues env result (scope :: outer) s.loopLabels s.loopLabels.condition
      (fun _ store => (.normal, store)) m₁ m₁ :=
    fun _ _ _ hat => ⟨rfl, hat, fun _ => performs_skip⟩
  rw [State.offset_emits rfl]
  cases bodyFirst with
  | true =>
    have hloop : Loop env s label s.loopLabels.condition (some condition) body (s.newLabels 4) m₁ m₁
      m₂ := ⟨hbody, s.pending_newLabels, .refl m₁, .refl m₁, fun _ => id, .tested htest⟩
    have hkept : s.Keeps (s.newLabels 4) := (State.Keeps.refl s).newLabels 4
    have ha := hs.keeps hkept (hs.passes.between hs'.passes (.newLabels 4 s) hloop.leads)
    obtain ⟨hscopes₂, hconditionAt, hexitAt, hperforms, hrounds⟩ :=
      hloop.rounds htype hinner hnext ha hs' ((s.slots_newLabels 4).symm ▸ hscopes)
    rw [hkept.flows] at hperforms hrounds
    rw [← hconditionAt] at hrounds
    have hlooped : image.Stays s.flows (scope :: outer)
        (Tree.whileLoop label condition body true).exec s.offset m₂.offset := by
      rw [← s.offset_newLabels 4]
      intro fuel store locals log hstore hlog
      rw [Tree.exec]
      exact (hperforms fuel store locals log hstore hlog).afterBody
        (s.loopLabels.flow label s.loopLabels.condition) rfl hexitAt (hrounds fuel)
    exact ⟨scope, hscopes₂, hlooped.outer⟩
  | false =>
    have hloop : Loop env s label s.loopLabels.condition (some condition) body s.jumpToTest m₁ m₁
      m₂ := ⟨hbody, s.pending_jumpToTest, .refl m₁, .refl m₁, fun _ => id, .tested htest⟩
    obtain ⟨hscopes₂, hlooped⟩ := hloop.fromTest htype hinner hnext hs hs' hscopes
    refine ⟨scope, hscopes₂, hlooped.outer.congr fun _ _ => ?_⟩
    rw [Tree.exec]
    rfl

theorem executed_forLoop {init update : List Tree} {condition : Option Tree}
    (hinit : ∀ tree ∈ init, image.Executed env result tree)
    (htype : ∀ tree ∈ condition, tree.HasType Ty.bool)
    (hupdates : ∀ tree ∈ update, image.Updated env result tree)
    (hinner : image.Executed env result body) :
    image.Executed env result (.forLoop label init condition update body) := by
  intro s s' scope outer hlowers _ hs hs' hscopes
  cases hlowers with
  | operation hother => cases hother.not_isControl
  | bridged hother | rewritten hother | leave hother => cases hother
  | @forLoop _ _ _ _ _ _ m₁ m₂ m₃ m₄ hfirst hbody hupdate htest => ?_
  have hbinds : Job.binds (.seq (update.map .statement)) = [] :=
    Job.bindsAll_map (fun _ => rfl) update
  have hlast : m₂.Pending m₁.loopLabels.update :=
    pending_body hbody m₁.pending_jumpToTest (by omega) (by omega)
  have hbound : m₂.Keeps (m₂.emits (.bind m₁.loopLabels.update)) := (State.Keeps.refl m₂).emits _
  have hloop : Loop env m₁ label m₁.loopLabels.update condition body m₁.jumpToTest m₂ m₃ m₄ := {
    lowers := hbody
    pending := m₁.pending_jumpToTest
    tail := (State.Leads.bind hlast).trans (hupdate.leads hbinds)
    kept := hbound.trans hupdate.keeps
    tailPending := fun hne hpending => hupdate.pending hbinds (hpending.bind (m₁.label_ne hne))
    test := htest }
  have hnext {inner : List SlotEntry} : image.Continues env result (inner :: scope :: outer)
      m₁.loopLabels m₁.loopLabels.update (Tree.execAll update) m₂ m₃ := by
    intro hhosts₂ hhosts₃ hscopes₂ _
    have hstart := hhosts₂.passes.between hhosts₃.passes (.bind hlast) (hupdate.leads hbinds)
    obtain ⟨hslots, hupdated⟩ := performs_updates hupdates hupdate (hhosts₂.move hstart rfl rfl)
      hhosts₃ hscopes₂
    rw [State.offset_emits rfl] at hupdated
    exact ⟨hslots, hstart.position_bind hlast.known, fun flows => hupdated flows _⟩
  have hjump : (m₁.newLabels 4).Leads m₁.jumpToTest := .jump _
  have hrest := (State.Leads.newLabels 4 m₁).trans (hjump.trans hloop.leads)
  have hexit := State.Leads.exitScope (m₄.emits (.bind m₁.loopLabels.exit))
  have hinitLeads := hfirst.leads (Job.bindsAll_map (fun _ => rfl) init)
  have hentered := hs.passes.between hs'.passes (.enterScope s)
    (hinitLeads.trans (hrest.trans hexit))
  have hm₁ := hentered.between hs'.passes hinitLeads (hrest.trans hexit)
  have hhosts : image.Hosts env result s.enterScope := hs.move hentered rfl rfl
  have hhosts₁ := hhosts.keeps hfirst.keeps hm₁
  have hhosts' : image.Hosts env result (m₄.emits (.bind m₁.loopLabels.exit)) :=
    hs'.move (hm₁.between hs'.passes hrest hexit) rfl rfl
  obtain ⟨inner, hscopes₁, hperforms⟩ := performs_statements hinit hfirst hhosts hhosts₁
    hscopes.pushScope
  obtain ⟨hscopes₄, hrounds⟩ := hloop.fromTest htype hinner hnext hhosts₁ hhosts' hscopes₁
  rw [hfirst.keeps.flows] at hrounds
  have hscoped := (hperforms.andThen hrounds.outer).inScope rfl
  rw [State.offset_exitScope, State.offset_emits rfl]
  exact ⟨scope, hscopes₄.popScope (List.cons_ne_nil _ _),
    hscoped.outer.congr fun _ _ => by rw [Tree.exec]⟩

end Loops

theorem updated_of_isUpdate (h : tree.Structured result) (hplain : tree.isUpdate = true) :
    image.Updated env result tree := by
  cases h with
  | assignLocal htype => exact updated_assignLocal htype
  | writeField htype => exact updated_writeStatic htype
  | expression htype => cases htype <;> cases hplain
  | _ => cases hplain

/-- Whatever lowers a structured statement performs it. -/
theorem executed_of_structured (h : tree.Structured result) : image.Executed env result tree := by
  induction h with
  | expression htype => exact (updated_expression htype).executed
  | nothing => exact updated_nothing.executed
  | block _ ih => exact executed_block ih
  | declareLocal htype => exact executed_declareLocal htype
  | assignLocal htype => exact (updated_assignLocal htype).executed
  | writeField htype => exact (updated_writeStatic htype).executed
  | @branch _ _ otherwise htype hbody _ ih ih' =>
    cases otherwise with
    | none => exact executed_when htype ih hbody.endsWithRedirect_eq_false
    | some other => exact executed_either htype ih hbody.endsWithRedirect_eq_false (ih' other rfl)
  | whileLoop htype _ ih => exact executed_whileLoop htype ih
  | forLoop _ htype hupdate hplain _ ih _ ih' =>
    exact executed_forLoop ih htype
      (fun tree hmem => updated_of_isUpdate (hupdate tree hmem) (hplain tree hmem)) ih'
  | breakTo => exact executed_breakTo
  | continueTo => exact executed_continueTo
  | returnVoid _ => exact executed_returnVoid
  | returnValue htype => exact executed_returnValue htype

end Image

end StackLowering
