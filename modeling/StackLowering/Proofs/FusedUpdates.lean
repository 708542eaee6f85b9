import StackLowering.Proofs.Agreement
import StackLowering.Proofs.ExpressionCode
/-!
Fused updates of variables. Adding a constant of 16 bits to an int variable is one
instruction, which has the same effect as the code it stands for. Fusing changes nothing
in code for which no assignment is lowered.
-/

namespace StackLowering

open Lower

/-- The same settings, with updates fused or not. -/
def Env.fusing (fuse : Bool) (env : Env) : Env :=
  { env with options := { env.options with fuseUpdates := fuse } }

/-- The standard handlers without the one for assignments. -/
def Handlers.unassigning : Handlers := standard.unregister .assignLocal

/-- The value is lowered without lowering an assignment: also without a handler for them,
nothing lacks one. -/
def Tree.AssignsNothing (env : Env) (s : State) (value : Tree) : Prop :=
  ∀ depth tree, ((Handlers.unassigning.run depth).value value env s).1 ≠
    .error (.unsupportedKind .assignLocal tree)

variable {env : Env} {s : State} {name : String} {ty : Ty} {value : Tree}

section Other

theorem Lower.orFail_env {α : Type} {env env' : Env} (outcome : Except Fault α) :
    orFail outcome env s = orFail outcome env' s := by
  cases outcome <;> rfl

/-- Lowering without assignments against lowering with updates fused or not. -/
def Lower.Comparison.unassigning (env : Env) (fuse : Bool) : Comparison env where
  other := env.fusing fuse
  allowed := fun _ => True
  ends := fun fault => ∃ tree, fault = .unsupportedKind .assignLocal tree
  nest := rfl
  bridges := rfl
  tables := rfl
  ordinary := fun _ _ => trivial
  unbound := fun _ => trivial

theorem Handlers.agrees_unassigning (env : Env) (fuse : Bool) (depth : Nat) (tree : Tree) :
    Agrees (.unassigning env fuse) (fun _ _ => True) (unassigning.run depth tree)
      (standard.run depth tree) := by
  induction depth generalizing tree with
  | zero => exact fun _ _ => .inr ⟨rfl, trivial⟩
  | succ depth ih =>
    by_cases hkind : tree.kind = .assignLocal
    · have hfind : unassigning.find? tree.kind = none := if_pos hkind
      rw [run, hfind, hkind]
      exact fun _ _ => .inl ⟨tree, rfl⟩
    · have hfind : unassigning.find? tree.kind = some (.standard tree.kind) := if_neg hkind
      have hhandled : unassigning.run (depth + 1) tree =
          Lowering.tree (unassigning.run depth) tree := by
        rw [run, hfind]
        exact if_pos rfl
      rw [hhandled, run_succ]
      refine Agrees.tree (fun name ty value hnode => ?_) ih
      rw [hnode] at hkind
      exact absurd rfl hkind

theorem Tree.AssignsNothing.value_eq (h : value.AssignsNothing env s) (fuse : Bool) (depth : Nat) :
    (Handlers.standard.run depth).value value (env.fusing fuse) s =
      (Handlers.unassigning.run depth).value value env s := by
  have hagrees := (Handlers.agrees_unassigning env fuse depth value).inExpression s trivial
  refine hagrees.eq fun fault hfault ⟨tree, hends⟩ => h depth tree ?_
  rw [← hends]
  exact hfault

theorem Tree.AssignsNothing.process_eq (h : value.AssignsNothing env s)
    (hplain : ∀ ty', Resolves env s ty ty' → Lowering.fusedDelta? name ty' value = none) :
    Handlers.standard.process (.assignLocal name ty value) (env.fusing true) s =
      Handlers.standard.process (.assignLocal name ty value) (env.fusing false) s := by
  change Handlers.standard.run (Handlers.depthBound env.nest s.cleanups _) _ (env.fusing true) s =
    Handlers.standard.run (Handlers.depthBound env.nest s.cleanups _) _ (env.fusing false) s
  cases Handlers.depthBound env.nest s.cleanups (Tree.assignLocal name ty value).size with
  | zero => rfl
  | succ depth => ?_
  have hassign (fuse : Bool) : Handlers.standard.run (depth + 1) (.assignLocal name ty value)
      (env.fusing fuse) s = (do
        let resolved ← resolve ty
        let slot ← require name resolved (.assignLocal name ty value)
        (Handlers.unassigning.run depth).value value
        emit (Call.setLocal slot).run : Lower Unit) env s := by
    rw [Handlers.run_succ, Lowering.tree, Lowering.assignLocal, bind_apply, bind_apply]
    have hresolve : resolve ty (env.fusing fuse) s = resolve ty env s := orFail_env _
    rw [hresolve]
    rcases hty : resolve ty env s with ⟨fault | resolved, m⟩
    · rfl
    · obtain ⟨hresolves, rfl⟩ := runs_resolve.mp hty
      dsimp only
      rw [bind_apply, bind_apply]
      have hrequire : require name resolved (.assignLocal name ty value) (env.fusing fuse) s =
          require name resolved (.assignLocal name ty value) env s := orFail_env _
      rw [hrequire]
      rcases hslot : require name resolved (.assignLocal name ty value) env s with ⟨fault | slot, m⟩
      · rfl
      · obtain ⟨_, rfl⟩ := runs_require.mp hslot
        dsimp only
        rw [bind_of_runs (runs_options.mpr ⟨rfl, rfl⟩), hplain resolved hresolves, ite_self]
        dsimp only
        rw [bind_apply, bind_apply, h.value_eq]
        rfl
  rw [hassign, hassign]

end Other

section Fused

variable {slot : UInt16} {delta : Int}

/-- Wherever the code from one state to another stands, it adds to a cell of the frame, and
changes nothing else. -/
def State.Increments (slot : UInt16) (delta : Int32) (s s' : State) : Prop :=
  ∀ image : Image, image.Passes s → image.Passes s' → ∀ x stack locals writes,
    locals[slot.toNat]? = some x → ∃ steps,
      image.program.run steps ⟨s.offset, stack, locals, writes⟩ =
        .running ⟨s'.offset, stack, locals.set slot.toNat (x + delta), writes⟩

theorem State.adds_incLocal (delta : Int16) :
    s.Increments slot delta.toInt32 (s.emits (.incLocal slot delta)) := by
  intro image hs hs' x stack locals writes hx
  refine ⟨1, ?_⟩
  rw [Program.run_one]
  exact (hs.read hs' trivial rfl).step_increment hx

/-- The call pushes a cell, which may be that of the variable. -/
structure Call.Loads (slot : UInt16) (call : Call) (cell : Int32 → Int32) : Prop where
  sound : ∀ slots : Slots, slots.Lists slot → call.Sound slots
  unbound : call.bound? = none
  step : ∀ {image : Image} {s : State}, image.Passes s → image.Passes (s.emits call) →
    ∀ {x stack locals writes}, locals[slot.toNat]? = some x →
      image.program.step ⟨s.offset, stack, locals, writes⟩ =
        .running ⟨(s.emits call).offset, cell x :: stack, locals, writes⟩

theorem Call.loads_getLocal : (Call.getLocal slot).Loads slot id where
  sound := fun _ => id
  unbound := rfl
  step := fun hs hs' => (hs.read hs' trivial rfl).step_getLocal

theorem Call.loads_int (c : Int32) : (Call.int c).Loads slot fun _ => c where
  sound := fun _ _ => trivial
  unbound := rfl
  step := fun hs hs' _ _ _ _ _ => hs.step_int hs'

theorem Call.Loads.leads {call : Call} {cell : Int32 → Int32} (h : call.Loads slot cell)
    (hslot : s.slots.Lists slot) : s.Leads (s.emits call) :=
  .step (fun _ => h.sound _ hslot) fun label hlabel => by
    rw [h.unbound] at hlabel
    cases hlabel

theorem State.adds_arith {first second : Call} {left right : Int32 → Int32} {op : Opcode}
    {f : Int32 → Int32 → Int32} {delta : Int32} (hfirst : first.Loads slot left)
    (hsecond : second.Loads slot right) (hbare : op.Bare) (hop : op.binary? = some f)
    (hsum : ∀ x, f (left x) (right x) = x + delta) (hlists : s.slots.Valid → s.slots.Lists slot) :
    s.Increments slot delta ((((s.emits first).emits second).emits (.op op)).emits (.setLocal slot)) := by
  intro image hs hs' x stack locals writes hx
  have hslot := hlists hs.valid
  have hloaded : s.Leads (s.emits first) := hfirst.leads hslot
  have hboth : (s.emits first).Leads ((s.emits first).emits second) := hsecond.leads hslot
  have hplain : (Call.op op).Plain := fun _ => hbare
  have hresult : ((s.emits first).emits second).Leads
      (((s.emits first).emits second).emits (.op op)) := .emits hplain rfl
  have hstored : (((s.emits first).emits second).emits (.op op)).Leads
      ((((s.emits first).emits second).emits (.op op)).emits (.setLocal slot)) :=
    .step (fun _ => hslot) nofun
  have h₁ := hs.between hs' hloaded (hboth.trans (hresult.trans hstored))
  have h₂ := h₁.between hs' hboth (hresult.trans hstored)
  have h₃ := h₂.between hs' hresult hstored
  obtain ⟨hlt, _⟩ := List.getElem?_eq_some_iff.mp hx
  refine ⟨4, ?_⟩
  have hfirst' : image.program.run 1 ⟨s.offset, stack, locals, writes⟩ = _ :=
    (Program.run_one _ _).trans (hfirst.step hs h₁ hx)
  have hsecond' := Program.run_succ hfirst' (hsecond.step h₁ h₂ hx)
  have hop' := Program.run_succ hsecond' ((h₂.read h₃ (hplain s.slots).proper rfl).step_binary hop)
  rw [hsum] at hop'
  exact Program.run_succ hop' ((h₃.read hs' trivial rfl).step_setLocal hlt)

theorem runs_value_int (c : Int32) (depth : Nat) :
    Runs ((Handlers.standard.run (depth + 1)).value (.literal (.int c))) env s ()
      (s.emits (.int c)) := rfl

theorem Lowering.runs_assignLocal (hty : Resolves env s ty Ty.int)
    (hslot : s.slots.require name Ty.int = .ok slot) {op : ArithOp} {opcode : Opcode}
    (hopcode : op.opcode? .i32 = some opcode) {left right : Tree} {first second : Call}
    (hfirst : ∀ depth, Runs ((Handlers.standard.run (depth + 1)).value left) (env.fusing false)
      s.enterExpression () (s.enterExpression.emits first))
    (hsecond : ∀ depth, Runs ((Handlers.standard.run (depth + 1)).value right) (env.fusing false)
      (s.enterExpression.emits first) () ((s.enterExpression.emits first).emits second)) :
    Runs (Handlers.standard.process (.assignLocal name ty (.arith op Ty.int left right)))
      (env.fusing false) s ()
      ((((s.emits first).emits second).emits (.op opcode)).emits (.setLocal slot)) := by
  obtain ⟨depth, hrun⟩ := Handlers.exists_run
    (.assignLocal name ty (.arith op Ty.int left right)) (env.fusing false) s
  rw [Runs, hrun, Handlers.run_succ]
  have hvalue : Runs ((Handlers.standard.run (depth + 7)).value (.arith op Ty.int left right))
      (env.fusing false) s () (((s.emits first).emits second).emits (.op opcode)) := by
    refine runs_inExpression.mpr
      ⟨((s.enterExpression.emits first).emits second).emits (.op opcode), ?_, rfl⟩
    rw [Handlers.run_succ, Lowering.tree, arith]
    refine runs_bind.mpr ⟨Ty.int, _, runs_resolve.mpr ⟨rfl, rfl⟩, ?_⟩
    have hcode : op.opcode? Ty.int.category = some opcode := hopcode
    rw [hcode]
    have hused : (((s.enterExpression.emits first).emits second).emits (.op opcode)).discard Ty.int =
        ((s.enterExpression.emits first).emits second).emits (.op opcode) :=
      State.discard_of_used (Nat.succ_ne_zero _)
    exact runs_bind.mpr ⟨(), _, hfirst _, runs_bind.mpr ⟨(), _, hsecond _,
      runs_bind.mpr ⟨(), _, runs_op.mpr rfl, runs_discard.mpr hused.symm⟩⟩⟩
  exact runs_bind.mpr ⟨Ty.int, s, runs_resolve.mpr ⟨hty, rfl⟩, runs_bind.mpr ⟨slot, s,
    runs_require.mpr ⟨hslot, rfl⟩, runs_bind.mpr ⟨_, s, runs_options.mpr ⟨rfl, rfl⟩,
      runs_bind.mpr ⟨(), _, hvalue, runs_emit.mpr rfl⟩⟩⟩⟩

/-- Without fusing, the code for the sum has the effect of the increment. -/
theorem Lowering.AddsConstant.exists_adds (h : AddsConstant name value delta)
    (hty : Resolves env s ty Ty.int) (hslot : s.slots.require name Ty.int = .ok slot) :
    ∃ s', Runs (Handlers.standard.process (.assignLocal name ty value)) (env.fusing false) s () s' ∧
      s.Increments slot (Int32.ofInt delta) s' := by
  have hread (depth : Nat) {t : State} (ht : t.slots = s.slots) :
      Runs ((Handlers.standard.run (depth + 1)).value (.readLocal name Ty.int)) (env.fusing false)
        t () (t.emits (.getLocal slot)) :=
    runs_value_readLocal (Handlers.run_succ ..) rfl (ht ▸ hslot)
  have hlists (hvalid : s.slots.Valid) : s.slots.Lists slot := hvalid.lists_of_require hslot
  cases h with
  | right c =>
    refine ⟨_, runs_assignLocal hty hslot rfl (hread · rfl) (runs_value_int c), ?_⟩
    refine State.adds_arith Call.loads_getLocal (Call.loads_int c) ⟨rfl, rfl⟩ rfl (fun x => ?_) hlists
    rw [Int32.ofInt_toInt]
    rfl
  | left c =>
    refine ⟨_, runs_assignLocal hty hslot rfl (runs_value_int c) (hread · rfl), ?_⟩
    refine State.adds_arith (Call.loads_int c) Call.loads_getLocal ⟨rfl, rfl⟩ rfl (fun x => ?_) hlists
    rw [Int32.ofInt_toInt]
    exact Int32.add_comm c x
  | less c =>
    refine ⟨_, runs_assignLocal hty hslot rfl (hread · rfl) (runs_value_int c), ?_⟩
    refine State.adds_arith Call.loads_getLocal (Call.loads_int c) ⟨rfl, rfl⟩ rfl (fun x => ?_) hlists
    rw [Int32.ofInt_neg, Int32.ofInt_toInt]
    exact Int32.sub_eq_add_neg x c

theorem Lowering.AddsConstant.runs_fused {delta : Int16} (h : AddsConstant name value delta.toInt)
    (hty : Resolves env s ty Ty.int) (hslot : s.slots.require name Ty.int = .ok slot) :
    Runs (Handlers.standard.process (.assignLocal name ty value)) (env.fusing true) s ()
      (s.emits (.incLocal slot delta)) := by
  obtain ⟨depth, hrun⟩ := Handlers.exists_run (.assignLocal name ty value) (env.fusing true) s
  rw [Runs, hrun, Handlers.run_succ]
  refine runs_bind.mpr ⟨Ty.int, s, runs_resolve.mpr ⟨hty, rfl⟩, runs_bind.mpr ⟨slot, s,
    runs_require.mpr ⟨hslot, rfl⟩, runs_bind.mpr ⟨_, s, runs_options.mpr ⟨rfl, rfl⟩, ?_⟩⟩⟩
  rw [fusedDelta?_eq_some.mpr ⟨rfl, h⟩]
  exact runs_emit.mpr rfl

end Fused

/-- Fusing preserves what assignments do. If an int variable and a constant are added, or the
constant is subtracted, and what is added fits 16 bits, then there is one instruction in
place of the code that there is without fusing, and both add the same to the cell of the
variable, modulo 2 ^ 32, and change nothing else. In all other assignments nothing depends
on fusing, unless another assignment is lowered for the value. -/
theorem process_assignLocal_fusing (env : Env) (s : State) (name : String) (ty : Ty)
    (value : Tree) :
    (∀ (slot : UInt16) (delta : Int16), Resolves env s ty Ty.int →
      s.slots.require name Ty.int = .ok slot → Lowering.AddsConstant name value delta.toInt →
      ∃ s', Runs (Handlers.standard.process (.assignLocal name ty value)) (env.fusing true) s ()
          (s.emits (.incLocal slot delta)) ∧
        Runs (Handlers.standard.process (.assignLocal name ty value)) (env.fusing false) s () s' ∧
        s.Increments slot delta.toInt32 (s.emits (.incLocal slot delta)) ∧
        s.Increments slot delta.toInt32 s') ∧
    (value.AssignsNothing env s →
      (∀ delta : Int16, Resolves env s ty Ty.int → ¬ Lowering.AddsConstant name value delta.toInt) →
      Handlers.standard.process (.assignLocal name ty value) (env.fusing true) s =
        Handlers.standard.process (.assignLocal name ty value) (env.fusing false) s) := by
  refine ⟨fun slot delta hty hslot hadds => ?_, fun hassigns hother => ?_⟩
  · obtain ⟨s', hruns, hunfused⟩ := hadds.exists_adds hty hslot
    exact ⟨s', hadds.runs_fused hty hslot, hruns, s.adds_incLocal delta, hunfused⟩
  · refine hassigns.process_eq fun ty' hty => Option.eq_none_iff_forall_ne_some.mpr ?_
    intro delta hdelta
    obtain ⟨rfl, hadds⟩ := Lowering.fusedDelta?_eq_some.mp hdelta
    exact hother delta hty hadds

/-- A state in which there is an int variable. -/
def State.withInt (name : String) : State :=
  let s := State.initial .empty .empty ⟨.object "demo.Main", "run", Ty.void, true⟩
  s.withSlots (s.slots.declare name Ty.int).2

/-- Subtracting 32768 is fused, and subtracting from a constant is the same with and without
fusing. -/
theorem process_assignLocal_fusing_bounds :
    let env : Env := ⟨.empty, {}⟩
    let s := State.withInt "x"
    let read := Tree.readLocal "x" Ty.int
    let update := Tree.assignLocal "x" Ty.int (.arith .sub Ty.int read (.literal (.int 32768)))
    let other := Tree.assignLocal "x" Ty.int (.arith .sub Ty.int (.literal (.int 1)) read)
    (∃ s', Runs (Handlers.standard.process update) (env.fusing true) s ()
          (s.emits (.incLocal 0 (-32768))) ∧
        Runs (Handlers.standard.process update) (env.fusing false) s () s' ∧
        s.Increments 0 (-32768) (s.emits (.incLocal 0 (-32768))) ∧ s.Increments 0 (-32768) s') ∧
      Handlers.standard.process other (env.fusing true) s =
        Handlers.standard.process other (env.fusing false) s := by
  refine ⟨(process_assignLocal_fusing ⟨.empty, {}⟩ (.withInt "x") "x" Ty.int _).1 0 (-32768) rfl rfl
    (.less 32768), (process_assignLocal_fusing ⟨.empty, {}⟩ (.withInt "x") "x" Ty.int _).2
      (fun depth tree => ?_) fun delta _ hadds => ?_⟩
  · rcases depth with _ | _ | depth <;> intro h <;> cases h
  · cases hadds

/-- A value that comes after a loop over an array. -/
def afterLoop : Tree :=
  .block [.forEach none "e" Ty.int .indexed (.newArray Ty.int (.literal (.int 2))) .nothing,
    .literal (.int 7)]

/-- A routine that assigns this value to a parameter. -/
def assignAfterLoop : RoutineDecl where
  owner := .object "demo.Main"
  name := "run"
  params := [⟨"x", Ty.int⟩]
  result := Ty.void
  isStatic := true
  body := .block [.assignLocal "x" Ty.int afterLoop, .ret none]

/-- There is no assignment in the value. But a loop over an array assigns to its index, so
fusing changes the code for it. -/
theorem assignAfterLoop_fused :
    afterLoop.Everywhere (·.kind ≠ .assignLocal) ∧
      (∀ delta, ¬ Lowering.AddsConstant "x" afterLoop delta) ∧
      ∀ fuse, (Lowering.routine Handlers.standard.process assignAfterLoop
          (Env.fusing fuse ⟨.empty, {}⟩) .empty).1.toOption.map
            (fun lowered => (lowered.1.code.chunk.instructions.filter (·.op = .incLocal)).length) =
        some (if fuse then 1 else 0) := by
  refine ⟨?_, fun delta hadds => ?_, by decide +kernel⟩
  · have hleaf {tree : Tree} (hchildren : tree.children = []) (hkind : tree.kind ≠ .assignLocal) :
        tree.Everywhere (·.kind ≠ .assignLocal) := (Tree.everywhere_iff_leaf hchildren).mpr hkind
    refine (Tree.everywhere_iff_operands rfl).mpr ⟨by decide,
      (Tree.everywhere_iff_operands rfl).mpr ⟨by decide, ?_, hleaf rfl (by decide)⟩,
      hleaf rfl (by decide)⟩
    exact (Tree.everywhere_iff_operand rfl).mpr ⟨by decide, hleaf rfl (by decide)⟩
  · cases hadds

end StackLowering
