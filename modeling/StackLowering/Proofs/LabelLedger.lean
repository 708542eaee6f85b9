import StackLowering.Proofs.Congruence
import StackLowering.Proofs.Labels
/-!
Labels on every way through lowering, also where it ends in a fault. A ledger says which
labels wait for their position and which may be used. A label is bound only while it waits,
so never twice, and what is used waits for its position or has it.
-/

namespace StackLowering

open Lower

/-- The fault is about how trees are handed to handlers or about labels. -/
def Fault.isMisuse : Fault → Bool
  | unsupportedKind .. | mismatchedTree .. | unboundLabel _ => true
  | _ => false

theorem Fault.isMisuse_of_isOrdinary {fault : Fault} (h : fault.isOrdinary = true) :
    fault.isMisuse = false := by
  cases fault with
  | unsupportedKind | mismatchedTree | unboundLabel => cases h
  | _ => rfl

namespace Flows

variable {flows : Flows} {flow : Flow} {label : Label}

/-- The label is one to which a transfer out of a loop or switch goes. -/
def Leads (flows : Flows) (label : Label) : Prop :=
  ∃ flow ∈ flows, label = flow.exit ∨ label = flow.bodyExit

theorem mem_of_find? {p : Flow → Bool} {depth : Nat} (h : flows.find? p = some (depth, flow)) :
    flow ∈ flows := by
  induction flows with
  | nil => cases h
  | cons first outer ih =>
    rw [find?] at h
    split_ifs at h
    · cases h
      exact List.mem_cons_self
    · exact List.mem_cons_of_mem _ (ih h)

theorem leads_cons (h : Leads (flow :: flows) label) :
    label = flow.exit ∨ label = flow.bodyExit ∨ flows.Leads label := by
  obtain ⟨other, hmem, hlabel⟩ := h
  rcases List.mem_cons.mp hmem with rfl | hmem
  · exact hlabel.imp_right .inl
  · exact .inr (.inr ⟨other, hmem, hlabel⟩)

end Flows

namespace Call

variable {call : Call} {asm : Assembler}

/-- A call uses no other labels than it says. -/
theorem uses_run {label : Label} (h : (call.run asm).Uses label) :
    asm.Uses label ∨ label ∈ call.uses := by
  rcases h with ⟨fixup, hfixup, rfl⟩ | ⟨region, hregion, hlabel⟩
  · cases hinstr : call.instruction? asm.pool with
    | none =>
      rw [(run_of_instruction?_none hinstr).2.1] at hfixup
      exact .inl (.inl ⟨fixup, hfixup, rfl⟩)
    | some emission =>
      obtain ⟨op, operand, overflow, hrun, _, _, htargets⟩ := places hinstr
      rw [hrun, Assembler.place, Assembler.fixups_foldl_writePiece] at hfixup
      rcases List.mem_append.mp hfixup with hold | hnew
      · exact .inl (.inl ⟨fixup, hold, rfl⟩)
      · have htarget := (Assembler.mem_fixupsFrom hnew).2
        have hmem := (@Assembler.target_mem_pieces _ ⟨asm.offset, op, operand⟩).mp htarget
        exact .inr (htargets ▸ hmem)
  · rw [regions_run] at hregion
    rcases List.mem_append.mp hregion with hold | hnew
    · exact .inl (.inr ⟨region, hold, hlabel⟩)
    · exact .inr ((mem_uses asm).mpr (.inr ⟨region, hnew, hlabel⟩))

theorem rebound_run (h : call.bound? = none) : (call.run asm).rebound = asm.rebound := by
  cases hinstr : call.instruction? asm.pool with
  | some emission =>
    obtain ⟨op, operand, overflow, hrun, _⟩ := places hinstr
    rw [hrun, Assembler.place_eq]
  | none =>
    cases silent_of_instruction? hinstr with
    | bind => cases h
    | exitFrame =>
      rw [run, Assembler.exitFrame]
      cases asm.openFrames <;> rfl
    | _ => rfl

end Call

/-- What is known of the labels of a routine while it is lowered. -/
structure Ledger where
  /-- Labels that wait for their position. -/
  pending : List Label
  /-- Labels that wait for their position or have it. -/
  known : List Label
  flows : Flows

namespace Ledger

variable {L : Ledger} {asm : Assembler} {flows inner : Flows} {label : Label}
  {front pending known : List Label}

/-- The label may be used in code. -/
def Reaches (L : Ledger) (label : Label) : Prop := label ∈ L.known ∨ L.flows.Leads label

structure Holds (L : Ledger) (asm : Assembler) (flows : Flows) : Prop where
  flows : flows = L.flows
  distinct : L.pending.Nodup
  pending : ∀ label ∈ L.pending, label.id < asm.positions.size ∧ asm.position? label = none
  settled : ∀ label, asm.Uses label ∨ L.Reaches label →
    label ∈ L.pending ∨ (asm.position? label).isSome = true
  once : asm.rebound = none

theorem holds_new (pool : Pool) : Holds ⟨[], [], []⟩ (.new pool) [] where
  flows := rfl
  distinct := .nil
  pending := List.forall_mem_nil _
  settled := by
    rintro label ((⟨_, hfixup, _⟩ | ⟨_, hregion, _⟩) | hknown | ⟨_, hflow, _⟩)
    · cases hfixup
    · cases hregion
    · cases hknown
    · cases hflow
  once := rfl

/-- A call that binds nothing. -/
theorem Holds.run (h : L.Holds asm flows) (call : Call) (hbound : call.bound? = none)
    (huses : ∀ label ∈ call.uses, L.Reaches label) : L.Holds (call.run asm) flows := by
  have hposition (label : Label) : (call.run asm).position? label = asm.position? label := by
    rw [Call.position?_run (by simp [hbound]), if_neg (by simp [hbound])]
  refine ⟨h.flows, h.distinct, fun label hmem => ?_, fun label hlabel => ?_, ?_⟩
  · obtain ⟨hlt, hnone⟩ := h.pending label hmem
    rw [hposition, Call.size_positions_run]
    exact ⟨Nat.lt_add_right _ hlt, hnone⟩
  · rw [hposition]
    rcases hlabel with hused | hreach
    · rcases Call.uses_run hused with hold | hnew
      · exact h.settled label (.inl hold)
      · exact h.settled label (.inr (huses label hnew))
    · exact h.settled label (.inr hreach)
  · rw [Call.rebound_run hbound, h.once]

theorem Holds.bind (h : Holds ⟨label :: pending, known, inner⟩ asm flows) :
    Holds ⟨pending, known, inner⟩ (asm.bind label) flows := by
  obtain ⟨hnot, hdistinct⟩ := List.nodup_cons.mp h.distinct
  obtain ⟨hlt, hnone⟩ := h.pending label List.mem_cons_self
  have hposition (other : Label) : (asm.bind label).position? other =
      if some label = some other then some asm.offset else asm.position? other :=
    @Call.position?_run (.bind label) asm (by simpa [Call.bound?] using hlt) other
  refine ⟨h.flows, hdistinct, fun other hmem => ?_, fun other hlabel => ?_, ?_⟩
  · obtain ⟨hother, hunbound⟩ := h.pending other (List.mem_cons_of_mem _ hmem)
    have hne : some label ≠ some other := fun heq => hnot (Option.some.inj heq ▸ hmem)
    rw [hposition, if_neg hne]
    exact ⟨by simpa [Assembler.bind] using hother, hunbound⟩
  · rw [hposition]
    by_cases heq : some label = some other
    · exact .inr (by rw [if_pos heq]; rfl)
    · rw [if_neg heq]
      refine (h.settled other hlabel).imp_left fun hmem => ?_
      exact (List.mem_cons.mp hmem).resolve_left fun hsame => heq (congrArg some hsame.symm)
  · rw [Assembler.bind, h.once, hnone]
    rfl

theorem Holds.newLabel (h : Holds ⟨front ++ pending, known, inner⟩ asm flows) :
    Holds ⟨front ++ asm.newLabel.1 :: pending, asm.newLabel.1 :: known, inner⟩
      asm.newLabel.2 flows := by
  have hrun := h.run .newLabel rfl (List.forall_mem_nil _)
  have hfresh : asm.newLabel.1 ∉ front ++ pending := fun hmem =>
    Nat.lt_irrefl _ (h.pending _ hmem).1
  refine ⟨h.flows, List.nodup_middle.mpr (List.nodup_cons.mpr ⟨hfresh, h.distinct⟩),
    fun label hmem => ?_, fun label hlabel => ?_, hrun.once⟩
  · rcases List.mem_cons.mp (List.perm_middle.mem_iff.mp hmem) with rfl | hmem
    · simp [Assembler.newLabel, Assembler.position?]
    · exact hrun.pending label hmem
  · rw [List.perm_middle.mem_iff, List.mem_cons, or_assoc]
    rcases hlabel with hused | hknown | hleads
    · exact .inr (hrun.settled label (.inl hused))
    · exact (List.mem_cons.mp hknown).imp_right fun hmem => hrun.settled label (.inr (.inl hmem))
    · exact .inr (hrun.settled label (.inr (.inr hleads)))

/-- No label is missing where none waits for its position. -/
theorem Holds.finish {s : State} (h : Holds ⟨[], known, inner⟩ s.assembler flows) :
    FailsWith (·.isMisuse = false) s.finish := by
  intro fault hfault
  rcases s.failsWith_finish fault hfault with hordinary | ⟨label, huses, hnone, _⟩
  · exact Fault.isMisuse_of_isOrdinary hordinary
  · rcases h.settled label (.inl huses) with hmem | hsome
    · cases hmem
    · rw [hnone] at hsome
      cases hsome

/-- Labels need not be known any more, and those of records are. -/
theorem Holds.weaken (h : L.Holds asm flows) {M : Ledger} (hpending : L.pending = M.pending)
    (hflows : inner = M.flows) (hreaches : ∀ label, M.Reaches label → L.Reaches label) :
    M.Holds asm inner where
  flows := hflows
  distinct := hpending ▸ h.distinct
  pending := hpending ▸ h.pending
  settled label hlabel := hpending ▸ h.settled label (hlabel.imp_right (hreaches label))
  once := h.once

end Ledger

namespace Lower

variable {α β : Type} {env : Env} {L : Ledger} {front pending known : List Label} {flows : Flows}

/-- How a step may end: with the labels as a ledger says, or with a fault that is not about
labels and without a label that is bound twice. -/
inductive Accepts (after : α → Ledger) : Except Fault α × State → Prop
  | ok {value : α} {s : State} (h : (after value).Holds s.assembler s.flows) :
      Accepts after (.ok value, s)
  | error {fault : Fault} {s : State} (h : fault.isMisuse = false)
      (honce : s.assembler.rebound = none) : Accepts after (.error fault, s)

/-- From where a ledger holds, the step leads to where another one does. -/
def Orderly (env : Env) (before : Ledger) (action : Lower α) (after : α → Ledger) : Prop :=
  ∀ s : State, before.Holds s.assembler s.flows → Accepts after (action env s)

namespace Orderly

variable {M : α → Ledger} {K : β → Ledger} {first : Lower α} {next : α → Lower β}

theorem pure {value : α} (h : M value = L) : Orderly env L (Pure.pure value) M :=
  fun _ hs => .ok (h ▸ hs)

theorem pure_of_reaches {value : α} (hpending : L.pending = (M value).pending)
    (hflows : L.flows = (M value).flows) (hknown : ∀ label ∈ (M value).known, L.Reaches label) :
    Orderly env L (Pure.pure value) M := by
  refine fun s hs => .ok (hs.weaken hpending (hs.flows.trans hflows) ?_)
  rintro label (hmem | hleads)
  · exact hknown label hmem
  · exact .inr (hflows ▸ hleads)

theorem throw {fault : Fault} (h : fault.isMisuse = false) :
    Orderly env L (throw fault : Lower α) M := fun _ hs => .error h hs.once

theorem bind_runs (h : Orderly env L first M)
    (hnext : ∀ value s s', Runs first env s value s' → Orderly env (M value) (next value) K) :
    Orderly env L (first >>= next) K := by
  intro s hs
  have hfirst := h s hs
  rw [bind_apply]
  rcases hrun : first env s with ⟨fault | value, s'⟩
  · rw [hrun] at hfirst
    cases hfirst with
    | error hfault honce => exact .error hfault honce
  · rw [hrun] at hfirst
    cases hfirst with
    | ok hafter => exact hnext value s s' hrun s' hafter

theorem bind (h : Orderly env L first M)
    (hnext : ∀ value, Orderly env (M value) (next value) K) : Orderly env L (first >>= next) K :=
  h.bind_runs fun value _ _ _ => hnext value

theorem get_bind {next : State → Lower β}
    (h : ∀ s : State, s.flows = L.flows → Orderly env L (next s) K) :
    Orderly env L (get >>= next) K :=
  fun s hs => h s hs.flows s hs

theorem weaken {pending known after : α → List Label}
    (h : Orderly env L first fun value => ⟨pending value, after value, flows⟩)
    (hknown : ∀ value, known value ⊆ after value) :
    Orderly env L first fun value => ⟨pending value, known value, flows⟩ := by
  intro s hs
  have hfirst := h s hs
  generalize first env s = outcome at hfirst ⊢
  cases hfirst with
  | error hfault honce => exact .error hfault honce
  | ok hafter =>
    exact .ok (hafter.weaken rfl hafter.flows fun _ => .imp_left fun hmem => hknown _ hmem)

/-- Labels that are no longer of use are forgotten. -/
theorem forget {inner after : List Label}
    (h : Orderly env ⟨pending, inner, flows⟩ first fun _ => ⟨after, inner, flows⟩)
    (hknown : known ⊆ inner) :
    Orderly env ⟨pending, inner, flows⟩ first fun _ => ⟨after, known, flows⟩ :=
  h.weaken fun _ => hknown

theorem of_nodup (h : L.pending.Nodup → Orderly env L first M) : Orderly env L first M :=
  fun s hs => h hs.distinct s hs

theorem modifyGet {f : State → α × State} (h : ∀ s, L.Holds s.assembler s.flows →
      (M (f s).1).Holds (f s).2.assembler (f s).2.flows) :
    Orderly env L (modifyGet f) M := fun s hs => .ok (h s hs)

theorem bracket {K : Ledger} {enter exit : State → State} {action : Lower α}
    (h : Orderly env K action M)
    (henter : ∀ s : State, L.Holds s.assembler s.flows → K.Holds (enter s).assembler (enter s).flows)
    (hexit : ∀ (after : Ledger) (s : State), after.Holds s.assembler s.flows →
      after.Holds (exit s).assembler (exit s).flows)
    (honce : ∀ s : State, (exit s).assembler.rebound = s.assembler.rebound) :
    Orderly env L (Lower.bracket enter exit action) M := by
  intro s hs
  have hinner := h _ (henter s hs)
  change Accepts M ((action env (enter s)).1, exit (action env (enter s)).2)
  generalize action env (enter s) = outcome at hinner ⊢
  cases hinner with
  | ok hafter => exact .ok (hexit _ _ hafter)
  | error hfault hnone => exact .error hfault ((honce _).trans hnone)

theorem forM {items : List β} {action : β → Lower Unit}
    (h : ∀ item ∈ items, Orderly env L (action item) fun _ => L) :
    Orderly env L (items.forM action) fun _ => L := by
  induction items with
  | nil => exact pure rfl
  | cons item rest ih =>
    obtain ⟨hitem, hrest⟩ := List.forall_mem_cons.mp h
    exact hitem.bind fun _ => ih hrest

theorem inExpression {action : Lower α} (h : Orderly env L action M) :
    Orderly env L (Lower.inExpression action) M :=
  h.bracket (fun _ => id) (fun _ _ => id) fun _ => rfl

theorem inStatement {action : Lower α} (h : Orderly env L action M) :
    Orderly env L (Lower.inStatement action) M := by
  intro s
  have hinner : Orderly env L (Lower.bracket (State.withDepth 0)
      (State.withDepth s.expressionDepth) action) M :=
    h.bracket (fun _ => id) (fun _ _ => id) fun _ => rfl
  exact hinner s

theorem withSlotScope {action : Lower α} (h : Orderly env L action M) :
    Orderly env L (Lower.withSlotScope action) M :=
  h.bracket (fun _ => id) (fun _ _ => id) fun _ => rfl

theorem withScope {action : Lower α} (h : Orderly env L action M) :
    Orderly env L (Lower.withScope action) M :=
  h.bracket (fun _ hs => hs.run .enterFrame rfl (List.forall_mem_nil _))
    (fun _ _ hs => hs.run .exitFrame rfl (List.forall_mem_nil _))
    fun _ => @Call.rebound_run .exitFrame _ rfl

/-- Cleanups are not about labels. -/
theorem inCleanup {cleanup : Tree} {action : Lower α} (h : Orderly env L action M) :
    Orderly env L (Lower.inCleanup cleanup action) fun region => M region.1 := by
  have hpush : Orderly env L (modify (State.pushCleanup cleanup)) fun _ => L :=
    modifyGet fun _ => id
  have hpop (value : α) : Orderly env (M value)
      (MonadState.modifyGet State.popCleanup : Lower (Option Cleanup)) fun _ => M value :=
    modifyGet fun _ => id
  exact hpush.bind fun _ => h.bind fun value => (hpop value).bind fun _ => pure rfl

/-- Both labels that the record of a loop or switch leads to are known around it. -/
theorem inFlow (after : List Label) {flow : Flow} {action : Lower α} (hexit : flow.exit ∈ known)
    (hbodyExit : flow.bodyExit ∈ known)
    (h : Orderly env ⟨pending, known, flow :: flows⟩ action fun _ => ⟨after, known, flow :: flows⟩) :
    Orderly env ⟨pending, known, flows⟩ (Lower.inFlow flow action)
      fun _ => ⟨after, known, flows⟩ := by
  have hpush : Orderly env ⟨pending, known, flows⟩ (modify (State.pushFlow flow))
      fun _ => ⟨pending, known, flow :: flows⟩ := by
    refine modifyGet fun s hs => hs.weaken rfl (congrArg (flow :: ·) hs.flows) ?_
    rintro label (hmem | hleads)
    · exact .inl hmem
    · rcases Flows.leads_cons hleads with rfl | rfl | houter
      · exact .inl hexit
      · exact .inl hbodyExit
      · exact .inr houter
  have hpop : Orderly env ⟨after, known, flow :: flows⟩ (modify State.popFlow)
      fun _ => ⟨after, known, flows⟩ := by
    refine modifyGet fun s hs => hs.weaken rfl (congrArg List.tail hs.flows) ?_
    rintro label (hmem | ⟨other, hmem, hlabel⟩)
    · exact .inl hmem
    · exact .inr ⟨other, List.mem_cons_of_mem _ hmem, hlabel⟩
  exact hpush.bind fun _ => h.bind fun _ => hpop.bind fun _ => pure rfl

theorem emit (call : Call) (hbound : call.bound? = none)
    (huses : ∀ label ∈ call.uses, L.Reaches label) :
    Orderly env L (Lower.emit call.run) fun _ => L :=
  fun _ hs => .ok (hs.run call hbound huses)

theorem jump {label : Label} (h : L.Reaches label) :
    Orderly env L (Lower.jump label) fun _ => L :=
  emit (.jump .jump label) rfl (List.forall_mem_singleton.mpr h)

theorem mark {label : Label} : Orderly env ⟨label :: pending, known, flows⟩ (Lower.mark label)
    fun _ => ⟨pending, known, flows⟩ :=
  fun _ hs => .ok hs.bind

/-- A label that is bound after others. -/
theorem newLabel (front : List Label) :
    Orderly env ⟨front ++ pending, known, flows⟩ Lower.newLabel
      fun label => ⟨front ++ label :: pending, label :: known, flows⟩ :=
  fun _ hs => .ok hs.newLabel

/-- A label that is bound after others, and of use only in what follows. -/
theorem withLabel {after : List Label} (front : List Label) {next : Label → Lower β}
    (h : ∀ label, Orderly env ⟨front ++ label :: pending, label :: known, flows⟩ (next label)
      fun _ => ⟨after, label :: known, flows⟩) :
    Orderly env ⟨front ++ pending, known, flows⟩ (Lower.newLabel >>= next)
      fun _ => ⟨after, known, flows⟩ :=
  (newLabel front).bind fun label => (h label).forget (List.subset_cons_self _ _)

end Orderly

/-- The step leaves every ledger as it is. -/
def Neutral (env : Env) (action : Lower α) : Prop := ∀ L : Ledger, Orderly env L action fun _ => L

namespace Neutral

variable {K : β → Ledger} {first : Lower α} {next : α → Lower β}

theorem bind (h : Neutral env first) (hnext : ∀ value, Orderly env L (next value) K) :
    Orderly env L (first >>= next) K :=
  (h L).bind hnext

theorem pure (value : α) : Neutral env (Pure.pure value : Lower α) := fun _ => .pure rfl

theorem throw {fault : Fault} (h : fault.isMisuse = false) :
    Neutral env (MonadExcept.throw fault : Lower α) :=
  fun _ => .throw h

theorem orFail {outcome : Except Fault α} (h : Ordinary outcome) :
    Neutral env (Lower.orFail outcome) := by
  cases outcome with
  | error fault => exact throw (Fault.isMisuse_of_isOrdinary (h fault rfl))
  | ok value => exact pure value

theorem get {next : State → Lower β} (h : ∀ s, Neutral env (next s)) :
    Neutral env (MonadState.get >>= next) :=
  fun L => .get_bind fun s _ => h s L

theorem forM {items : List β} {action : β → Lower Unit}
    (h : ∀ item ∈ items, Neutral env (action item)) : Neutral env (items.forM action) :=
  fun L => .forM fun item hitem => h item hitem L

theorem mapM {items : List β} {action : β → Lower α}
    (h : ∀ item ∈ items, Neutral env (action item)) : Neutral env (items.mapM action) := by
  induction items with
  | nil =>
    rw [List.mapM_nil]
    exact pure []
  | cons item rest ih =>
    obtain ⟨hitem, hrest⟩ := List.forall_mem_cons.mp h
    rw [List.mapM_cons]
    exact fun L => hitem.bind fun _ => (ih hrest).bind fun _ => pure _ L

/-- A label that is never used. -/
theorem newLabel : Neutral env Lower.newLabel :=
  fun _ _ hs => .ok (hs.run .newLabel rfl (List.forall_mem_nil _))

theorem emit (call : Call) (hbound : call.bound? = none) (huses : call.uses = []) :
    Neutral env (Lower.emit call.run) :=
  fun _ => .emit call hbound (huses ▸ List.forall_mem_nil _)

theorem getLocal (slot : UInt16) : Neutral env (Lower.emit (.getLocal slot)) :=
  emit (.getLocal slot) rfl rfl

theorem setLocal (slot : UInt16) : Neutral env (Lower.emit (.setLocal slot)) :=
  emit (.setLocal slot) rfl rfl

theorem op (code : Opcode) : Neutral env (Lower.op code) := emit (.op code) rfl rfl

theorem discard (ty : Ty) : Neutral env (Lower.discard ty) := by
  intro L s hs
  refine .ok ?_
  unfold State.discard
  split_ifs
  · exact hs
  · exact hs.run (.pop ty.width) rfl (List.forall_mem_nil _)

/-- Calls that are not about labels. -/
theorem calls {named : UInt16 → Prop} {calls : List Call}
    (h : ∀ call ∈ calls, call.Computes named) :
    Neutral env (calls.forM fun call => Lower.emit call.run) := by
  refine forM fun call hcall => ?_
  have hcomputes := h call hcall
  refine emit call hcomputes.unmarked.1 ?_
  cases call with
  | jump | tableSwitch | lookupSwitch | region => exact hcomputes.elim
  | _ => rfl

theorem nest : Neutral env Lower.nest := fun _ _ hs => .ok hs

theorem options : Neutral env Lower.options := fun _ _ hs => .ok hs

theorem tableLimit : Neutral env Lower.tableLimit := fun _ _ hs => .ok hs

theorem currentType : Neutral env Lower.currentType := fun _ _ hs => .ok hs

theorem resolve (ty : Ty) : Neutral env (Lower.resolve ty) :=
  fun L => nest.bind fun nest => currentType.bind fun _ => orFail (nest.ordinary_resolve _ ty) L

theorem resolveAll (types : List Ty) : Neutral env (Lower.resolveAll types) :=
  fun L => nest.bind fun nest => currentType.bind fun _ =>
    orFail (nest.ordinary_resolveAll _ types) L

theorem resolveSignature (signature : Signature) : Neutral env (Lower.resolveSignature signature) :=
  fun L => nest.bind fun nest => currentType.bind fun _ =>
    orFail (nest.ordinary_resolveSignature _ signature) L

theorem modifyGet {f : State → α × State}
    (h : ∀ s, ((f s).2.assembler, (f s).2.flows) = (s.assembler, s.flows)) :
    Neutral env (MonadState.modifyGet f) := by
  intro L s hs
  obtain ⟨hasm, hflows⟩ := Prod.mk.inj (h s)
  rw [← hasm, ← hflows] at hs
  exact .ok hs

theorem declare (name : String) (ty : Ty) : Neutral env (Lower.declare name ty) := by
  intro L
  refine (modifyGet (fun _ => rfl) L).bind_runs fun outcome s _ hrun => ?_
  have houtcome : (s.slots.declare name ty).1 = outcome :=
    congrArg Prod.fst (runs_modifyGet.mp hrun)
  exact orFail (houtcome ▸ s.slots.ordinary_declare name ty) L

theorem require (name : String) (ty : Ty) (tree : Tree) :
    Neutral env (Lower.require name ty tree) :=
  get fun s => orFail (s.slots.ordinary_require name ty tree)

theorem uniqueName (base : String) : Neutral env (Lower.uniqueName base) :=
  modifyGet fun _ => rfl

theorem keepResult (ty : Ty) : Neutral env (Lower.keepResult ty) :=
  fun L => (uniqueName _).bind fun name => declare name ty L

theorem reserve (name : String) : Neutral env (Lower.reserve name) := modifyGet fun _ => rfl

theorem bridged (access : Tree) : Neutral env (Lower.bridged access) := by
  intro L s hs
  have hrun : Lower.bridged access env s =
      (.ok (s.bridged env access).1, (s.bridged env access).2) := rfl
  rcases hbridged : s.bridged env access with ⟨use, s'⟩
  obtain ⟨bridges, rfl⟩ := State.bridged_keeps hbridged
  rw [hrun, hbridged]
  exact .ok hs

end Neutral

end Lower

end StackLowering
