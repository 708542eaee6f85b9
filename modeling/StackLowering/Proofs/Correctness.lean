import StackLowering.Proofs.PrivateAccess
import StackLowering.Proofs.StatementCode
/-!
Lowered routines behave like their bodies. A routine whose body is structured is
called with arguments of the types of its parameters; then the machine writes the
static fields that the evaluation of the body writes, in the same order, and ends
as the evaluation ends, or runs on if the evaluation has no end.
-/

namespace StackLowering

theorem Program.writes_isPrefix {program : Program} {machine : Machine} {steps more : Nat}
    (hle : steps ≤ more) (h : program.run more machine ≠ .stuck) :
    (program.run steps machine).writes <+: (program.run more machine).writes := by
  obtain ⟨rest, rfl⟩ := Nat.exists_eq_add_of_le hle
  rw [run_add] at h ⊢
  cases hrun : program.run steps machine with
  | running middle =>
    rw [hrun] at h
    exact (program.adds_run middle rest).resolve_left h
  | halted outcome writes => exact List.prefix_refl _
  | stuck => exact List.nil_prefix

namespace RoutineDecl

variable {decl : RoutineDecl} {env : Env} {args : List Value} {program : Program}
  {start : Machine}

/-- The field that the machine writes for a write of the evaluation, and the cell. -/
def recorded? (decl : RoutineDecl) (env : Env) (write : Write) : Option (Digest × Int32) :=
  match env.nest.resolve decl.owner write.owner with
  | .ok owner => some (Digest.ofField owner.digest write.name, write.value.cell)
  | .error _ => none

/-- The machine has written what the evaluation wrote. -/
def Records (decl : RoutineDecl) (env : Env) (writes : List Write)
    (log : List (Digest × Int32)) : Prop :=
  writes.map (decl.recorded? env) = log.map some

/-- A machine behaves like the evaluation of a routine. -/
structure BehavesAs (decl : RoutineDecl) (env : Env) (args : List Value) (program : Program)
    (start : Machine) : Prop where
  /-- The evaluation goes on or has an outcome. -/
  defined : ∀ fuel, (decl.evaluate args fuel).1 = .unfinished ∨
    ((decl.evaluate args fuel).1.outcome? decl.result).isSome
  /-- The machine halts if the evaluation ends, with the same outcome and writes. -/
  halts : ∀ outcome log, (∃ steps, program.run steps start = .halted outcome log) ↔
    ∃ fuel, (decl.evaluate args fuel).1.outcome? decl.result = some outcome ∧
      decl.Records env (decl.evaluate args fuel).2.writes log
  /-- The machine runs forever if the evaluation has no end. -/
  diverges : (∀ steps, ∃ machine, program.run steps start = .running machine) ↔
    ∀ fuel, (decl.evaluate args fuel).1 = .unfinished
  /-- Whatever the evaluation writes, the machine writes. -/
  writes : ∀ fuel, ∃ steps,
    decl.Records env (decl.evaluate args fuel).2.writes (program.run steps start).writes
  /-- Whatever the machine writes, the evaluation writes. -/
  written : ∀ steps, ∃ fuel log, decl.Records env (decl.evaluate args fuel).2.writes log ∧
    (program.run steps start).writes <+: log

/-- The machine follows the evaluation as far as the fuel goes. -/
def Follows (decl : RoutineDecl) (env : Env) (args : List Value) (program : Program)
    (start : Machine) (fuel : Nat) : Prop :=
  (∃ outcome steps log, (decl.evaluate args fuel).1.outcome? decl.result = some outcome ∧
      program.run steps start = .halted outcome log ∧
      decl.Records env (decl.evaluate args fuel).2.writes log) ∨
    (decl.evaluate args fuel).1 = .unfinished ∧ ∃ steps after, fuel ≤ steps ∧
      program.run steps start = .running after ∧
      decl.Records env (decl.evaluate args fuel).2.writes after.writes

theorem Records.unique {writes : List Write} {log log' : List (Digest × Int32)}
    (h : decl.Records env writes log) (h' : decl.Records env writes log') : log = log' :=
  List.map_injective_iff.mpr (Option.some_injective _) (h.symm.trans h')

section Follows

variable (h : ∀ fuel, decl.Follows env args program start fuel)

include h

theorem halts_iff (outcome : Outcome) (log : List (Digest × Int32)) :
    (∃ steps, program.run steps start = .halted outcome log) ↔
      ∃ fuel, (decl.evaluate args fuel).1.outcome? decl.result = some outcome ∧
        decl.Records env (decl.evaluate args fuel).2.writes log := by
  constructor
  · rintro ⟨steps, hrun⟩
    rcases h (steps + 1) with ⟨outcome', steps', log', houtcome, hrun', hlog⟩ |
      ⟨_, steps', after, hle, hrun', _⟩
    · -- A machine halts in one way only.
      have hone := (Program.run_of_halted hrun (Nat.le_add_right steps steps')).symm.trans
        (Program.run_of_halted hrun' (Nat.le_add_left steps' steps))
      obtain ⟨rfl, rfl⟩ := Progress.halted.inj hone
      exact ⟨steps + 1, houtcome, hlog⟩
    · have hhalted := Program.run_of_halted hrun (show steps ≤ steps' by omega)
      cases hrun'.symm.trans hhalted
  · rintro ⟨fuel, houtcome, hlog⟩
    rcases h fuel with ⟨outcome', steps, log', houtcome', hrun, hlog'⟩ | ⟨hunfinished, _⟩
    · obtain rfl := Option.some.inj (houtcome.symm.trans houtcome')
      obtain rfl := hlog.unique hlog'
      exact ⟨steps, hrun⟩
    · rw [hunfinished] at houtcome
      cases houtcome

theorem diverges_iff :
    (∀ steps, ∃ machine, program.run steps start = .running machine) ↔
      ∀ fuel, (decl.evaluate args fuel).1 = .unfinished := by
  constructor
  · intro hruns fuel
    rcases h fuel with ⟨outcome, steps, log, _, hrun, _⟩ | ⟨hunfinished, _⟩
    · obtain ⟨machine, hrunning⟩ := hruns steps
      cases hrun.symm.trans hrunning
    · exact hunfinished
  · intro hunfinished steps
    rcases h steps with ⟨outcome, _, _, houtcome, _⟩ | ⟨_, steps', after, hle, hrun, _⟩
    · rw [hunfinished steps] at houtcome
      cases houtcome
    · exact Program.running_of_le hrun hle

theorem exists_writes_isPrefix (steps : Nat) :
    ∃ fuel log, decl.Records env (decl.evaluate args fuel).2.writes log ∧
      (program.run steps start).writes <+: log := by
  rcases h steps with ⟨outcome, steps', log, _, hrun, hlog⟩ | ⟨_, steps', after, hle, hrun, hlog⟩
  · have hhalted := Program.run_of_halted hrun (Nat.le_add_left steps' steps)
    have hwrites := Program.writes_isPrefix (Nat.le_add_right steps steps')
      (fun hstuck => nomatch hhalted.symm.trans hstuck)
    rw [hhalted] at hwrites
    exact ⟨steps, log, hlog, hwrites⟩
  · have hwrites := Program.writes_isPrefix hle fun hstuck => nomatch hrun.symm.trans hstuck
    rw [hrun] at hwrites
    exact ⟨steps, after.writes, hlog, hwrites⟩

theorem behavesAs_of_follows : decl.BehavesAs env args program start where
  defined fuel := by
    rcases h fuel with ⟨outcome, _, _, houtcome, _⟩ | ⟨hunfinished, _⟩
    · exact .inr (Option.isSome_of_eq_some houtcome)
    · exact .inl hunfinished
  halts := halts_iff h
  diverges := diverges_iff h
  writes fuel := by
    rcases h fuel with ⟨outcome, steps, log, _, hrun, hlog⟩ | ⟨_, steps, after, _, hrun, hlog⟩
    · refine ⟨steps, ?_⟩
      rw [hrun]
      exact hlog
    · refine ⟨steps, ?_⟩
      rw [hrun]
      exact hlog
  written := exists_writes_isPrefix h

end Follows

end RoutineDecl

section Transfers

variable {result : Ty}

theorem Tree.execAll_ne_normal {trees : List Tree}
    (h : ∀ tree ∈ trees, tree.endsInTransfer = true →
      ∀ fuel store, (tree.exec fuel store).1 ≠ .normal)
    (hends : lastTransfers trees = true) (fuel : Nat) (store : Store) :
    (Tree.execAll trees fuel store).1 ≠ .normal := by
  induction trees generalizing store with
  | nil => cases hends
  | cons tree rest ih =>
    obtain ⟨htree, hothers⟩ := List.forall_mem_cons.mp h
    rw [Tree.execAll]
    rw [lastTransfers] at hends
    cases hexec : tree.exec fuel store with
    | mk completion after =>
      cases completion with
      | normal =>
        split_ifs at hends with hlast
        · exact absurd (congrArg Prod.fst hexec) (htree hends fuel store)
        · exact ih hothers hends after
      | broke label | continued label | returned value | unfinished | stuck =>
        intro hnormal
        cases hnormal

theorem Tree.Structured.exec_ne_normal {tree : Tree} (h : tree.Structured result)
    (hends : tree.endsInTransfer = true) (fuel : Nat) (store : Store) :
    (tree.exec fuel store).1 ≠ .normal := by
  induction h generalizing fuel store with
  | expression htype => cases htype <;> cases hends
  | block _ ih =>
    rw [Tree.exec]
    exact Tree.execAll_ne_normal ih hends fuel store
  | returnVoid =>
    rw [Tree.exec]
    intro hnormal
    cases hnormal
  | returnValue htype =>
    rw [Tree.exec, Store.withValue]
    intro hnormal
    split at hnormal <;> cases hnormal
  | _ => cases hends

end Transfers

section Parameters

variable {env : Env} {s s' : State}

theorem Value.ty_eq_int_or_bool (value : Value) : value.ty = Ty.int ∨ value.ty = Ty.bool := by
  cases value with
  | int value => exact .inl rfl
  | bool value => exact .inr rfl

theorem ScopeStack.visible?_singleton_eq_none {scope : List SlotEntry} {name : String}
    (h : ∀ entry ∈ scope, entry.name ≠ name) : visible? [scope] name = none := by
  have hnamed : named? scope name = none := by
    rw [named?, List.find?_eq_none]
    intro entry hmem
    simpa using h entry hmem
  rw [visible?_of_named?_eq_none hnamed, visible?]

theorem Slots.declare_fresh {slots slots' : Slots} {name : String} {ty : Ty} {slot : UInt16}
    (hunbound : slots.bindings[name]? = none)
    (h : slots.declare name ty = (.ok slot, slots')) :
    slot.toNat = slots.frameSize ∧ slots'.frameSize = slots.frameSize + max 1 ty.width := by
  rcases Slots.declare_eq_ok h with ⟨hredeclared, _⟩ | ⟨_, hnext, rfl⟩
  · obtain ⟨binding, hbinding, _⟩ := redeclared?_eq_some hredeclared
    cases hunbound.symm.trans hbinding
  · refine ⟨?_, ?_⟩
    · rw [nextSlot_eq_ok hnext, shadow_eq]
    · rw [Slots.allocate, shadow_eq]

variable {scope : List SlotEntry} {vars : Variables} {locals : List Int32}

/-- A parameter takes the next cell of the frame, where its argument is. -/
theorem Lowers.declares_param {param : Param} {value : Value}
    (h : Lowers env (.param param) s s') (hty : value.ty = param.ty)
    (hnew : ∀ entry ∈ scope, entry.name ≠ param.name) (hscopes : s.slots.Represents [scope])
    (hagrees : ScopeStack.Agrees [scope] vars locals)
    (hcell : locals[s.slots.frameSize]? = some value.cell) :
    s'.assembler = s.assembler ∧ s'.slots.frameSize = s.slots.frameSize + 1 ∧
      ∃ slot, s'.slots.Represents (ScopeStack.declare ⟨param.name, param.ty, slot⟩ [scope]) ∧
        ScopeStack.Agrees (ScopeStack.declare ⟨param.name, param.ty, slot⟩ [scope])
          (vars.declare param.name value) locals := by
  cases h with
  | @param _ ty slot slots _ hresolves hslot =>
    obtain rfl := hresolves.eq_of_plain (hty ▸ value.ty_eq_int_or_bool)
    have hunbound : s.slots.bindings[param.name]? = none :=
      (hscopes.bindings _).trans (ScopeStack.visible?_singleton_eq_none hnew)
    obtain ⟨hnext, hsize⟩ := Slots.declare_fresh hunbound hslot
    have hwidth : max 1 param.ty.width = 1 := by
      rw [← hty]
      cases value <;> rfl
    rw [hwidth] at hsize
    have hscopes' := hscopes.declare hslot
    rw [← hnext] at hcell
    obtain ⟨hlt, hget⟩ := List.getElem?_eq_some_iff.mp hcell
    have hdeclared := hagrees.declare hlt (hty ▸ hscopes'.distinct)
    rw [← hget, List.set_getElem_self, hty] at hdeclared
    exact ⟨rfl, hsize, slot, hscopes', hdeclared⟩

/-- Parameters take the first cells of the frame, where the arguments are. -/
theorem Lowers.declares_params {params : List Param} {args : List Value}
    (h : Lowers env (.seq (params.map .param)) s s') (hnames : (params.map Param.name).Nodup)
    (hnew : ∀ param ∈ params, ∀ entry ∈ scope, entry.name ≠ param.name)
    (htypes : List.Forall₂ (fun param value => value.ty = param.ty) params args)
    (hscopes : s.slots.Represents [scope]) (hagrees : ScopeStack.Agrees [scope] vars locals)
    (hlocals : ∀ index value, args[index]? = some value →
      locals[s.slots.frameSize + index]? = some value.cell) :
    s'.assembler = s.assembler ∧ s'.slots.frameSize = s.slots.frameSize + params.length ∧
      ∃ scope', s'.slots.Represents [scope'] ∧
        ScopeStack.Agrees [scope']
          ((params.zip args).foldl (fun vars arg => vars.declare arg.1.name arg.2) vars)
          locals := by
  induction params generalizing s scope args vars with
  | nil =>
    cases h
    exact ⟨rfl, rfl, scope, hscopes, hagrees⟩
  | cons param rest ih =>
    cases htypes with
    | @cons _ value _ others hty hothers =>
      cases h with
      | @cons _ _ _ m _ hparam hrest =>
        obtain ⟨hfirst, hrestNames⟩ := List.nodup_cons.mp hnames
        obtain ⟨hnewFirst, hnewRest⟩ := List.forall_mem_cons.mp hnew
        obtain ⟨hassembler, hsize, slot, hscopes', hagrees'⟩ := hparam.declares_param hty
          hnewFirst hscopes hagrees (hlocals 0 value rfl)
        have hnew' : ∀ other ∈ rest, ∀ entry ∈
            (⟨param.name, param.ty, slot⟩ :: scope.filter (·.name != param.name) :
              List SlotEntry), entry.name ≠ other.name := by
          intro other hother
          refine List.forall_mem_cons.mpr ⟨fun heq => ?_, fun entry hmem => ?_⟩
          · exact hfirst (List.mem_map.mpr ⟨other, hother, heq.symm⟩)
          · exact hnewRest other hother entry (List.mem_of_mem_filter hmem)
        have hlocals' : ∀ index value, others[index]? = some value →
            locals[m.slots.frameSize + index]? = some value.cell := by
          intro index value hvalue
          rw [hsize, Nat.add_right_comm]
          exact hlocals (index + 1) value hvalue
        obtain ⟨hassembler', hsize', hdeclared⟩ :=
          ih hrest hrestNames hnew' hothers hscopes' hagrees' hlocals'
        refine ⟨hassembler'.trans hassembler, ?_, hdeclared⟩
        rw [hsize', hsize, List.length_cons]
        omega

theorem Slots.Step.frameSize_le {slots slots' : Slots} (h : Step slots slots') :
    slots.frameSize ≤ slots'.frameSize := by
  cases h with
  | pushScope | reserve | uniqueName => exact Nat.le_refl _
  | popScope =>
    unfold Slots.popScope
    split_ifs <;> exact Nat.le_refl _
  | declare hdeclare =>
    rcases declare_eq_ok hdeclare with ⟨_, rfl⟩ | ⟨_, _, rfl⟩
    · exact Nat.le_refl _
    · rw [Slots.allocate, shadow_eq]
      exact Nat.le_add_right _ _

theorem State.Steps.frameSize_le {closed : Bool} (h : Steps closed s s') :
    s.slots.frameSize ≤ s'.slots.frameSize := by
  induction h with
  | refl => exact Nat.le_refl _
  | emits _ _ ih | exits _ _ ih | routines _ _ _ ih | forget _ ih => exact ih
  | slots _ hstep ih => exact ih.trans hstep.frameSize_le
  | context _ hcore ih => exact (Prod.mk.inj (Prod.mk.inj hcore).2).1 ▸ ih

end Parameters

variable {shared : Shared}

section Routines

variable {decl : RoutineDecl} {env : Env} {args : List Value} {s m t : State}
  {output : RoutineOutput}

/-- The code of a routine that is finished. -/
def State.image (t : State) (decl : RoutineDecl) (env : Env) (output : RoutineOutput) : Image where
  program := ⟨output.code.chunk, t.assembler.pool⟩
  position := t.assembler.positionOf
  frameSize := output.frameSize
  records write field := decl.recorded? env write = some field

theorem Image.logs_iff {writes : List Write} {log : List (Digest × Int32)} :
    (t.image decl env output).Logs writes log ↔ decl.Records env writes log := by
  rw [RoutineDecl.Records, ← List.forall₂_eq_eq_eq, List.forall₂_map_left_iff,
    List.forall₂_map_right_iff]
  rfl

theorem State.finish_eq_ok (h : t.finish = .ok output) :
    t.assembler.finish = .ok output.code ∧ output.frameSize = t.slots.frameSize := by
  obtain ⟨code, hcode, houtput⟩ := bind_eq_ok.mp h
  obtain rfl := Except.ok.inj houtput
  exact ⟨hcode, rfl⟩

theorem State.passes_image (hfinish : t.finish = .ok output) (hvalid : t.slots.Valid)
    (hcoded : ∃ code, t.assembler.Holds code) : (t.image decl env output).Passes t where
  valid := hvalid
  coded := hcoded
  decodes code hcode := (hcode.finish (finish_eq_ok hfinish).1).2.1
  pool := .refl _
  positions hposition := by
    change t.assembler.positionOf _ = _
    rw [Assembler.positionOf, hposition]
    rfl
  frame hslot := by
    change _ < output.frameSize
    rw [(finish_eq_ok hfinish).2]
    exact hvalid.frame _ hslot
  overflow := (Assembler.finish_eq_ok.mp (finish_eq_ok hfinish).1).1

theorem State.reserveAll_represents {scopes : ScopeStack} (names : List String)
    (h : s.slots.Represents scopes) :
    (s.reserveAll names).assembler = s.assembler ∧
      (s.reserveAll names).slots.frameSize = s.slots.frameSize ∧
      (s.reserveAll names).slots.Represents scopes := by
  induction names generalizing s with
  | nil => exact ⟨rfl, rfl, h⟩
  | cons name rest ih => exact ih (h.reserve name)

theorem State.Leads.reserveAll (names : List String) (s : State) :
    s.Leads (s.reserveAll names) := by
  refine ⟨(Reaches.refl s).reserveAll names, fun hposition => ?_⟩
  exact ((BindsOnly.refl [] s).reserveAll names).position? (List.forall_mem_nil _) hposition

theorem Machine.locals_start {frameSize index : Nat} {value : Value}
    (h : args[index]? = some value) :
    (start frameSize (args.map Value.cell)).locals[index]? = some value.cell := by
  have hlt := (List.getElem?_eq_some_iff.mp h).1
  rw [start, List.getElem?_append_left (by rwa [List.length_map]), List.getElem?_map, h]
  rfl

theorem Machine.length_start {frameSize : Nat} (h : args.length ≤ frameSize) :
    (start frameSize (args.map Value.cell)).locals.length = frameSize := by
  rw [start, List.length_append, List.length_replicate, List.length_map]
  omega

/-- The end of a routine: it returns nothing, or control runs off its end. -/
theorem State.passes_end {image : Image} (hm : image.Passes m)
    (ht : image.Passes (m.emitsAll
      (if decl.result.isVoid && !decl.body.endsInTransfer then [.op .returnVoid] else [])))
    (hsize : image.program.chunk.size = (m.emitsAll
      (if decl.result.isVoid && !decl.body.endsInTransfer then [.op .returnVoid] else [])).offset)
    (hends : decl.result.isVoid = true → decl.body.endsInTransfer = false)
    (locals : List Int32) (log : List (Digest × Int32)) :
    image.program.run 1 ⟨m.offset, [], locals, log⟩ =
      .halted (if decl.result.isVoid then .returned none else .ended) log := by
  rw [Program.run_one]
  cases hvoid : decl.result.isVoid with
  | true =>
    rw [hvoid, hends hvoid] at ht
    have hreturn : image.program.At m.offset .returnVoid .none
      (m.emits (.op .returnVoid)).offset := hm.read ht ⟨rfl, rfl⟩ rfl
    exact hreturn.step_returnVoid
  | false =>
    rw [hvoid] at hsize
    have hend : m.offset = image.program.chunk.size := hsize.symm
    unfold Program.step
    rw [if_pos hend]
    rfl

theorem State.hosts_initial (hkeeps : (State.initial env.nest shared decl.info).Keeps s)
    (hpasses : (t.image decl env output).Passes s) :
    (t.image decl env output).Hosts env decl.result s where
  passes := hpasses
  result := by
    rw [State.result, State.routine?_of_data hkeeps.data]
    rfl
  cleanups := hkeeps.cleanups
  records hresolves name value := by
    rw [Resolves, State.currentType_of_data hkeeps.data] at hresolves
    change decl.recorded? env _ = _
    have howner : decl.info.owner = decl.owner := rfl
    rw [RoutineDecl.recorded?, ← howner, hresolves]

theorem Lowers.body_inv (h : Lowers env (.body decl) s t) :
    ∃ t₁ m, Lowers env (.seq (decl.params.map .param)) (s.reserveAll decl.body.variableNames) t₁ ∧
      Lowers env (.statement decl.body) t₁ m ∧ t = m.emitsAll
        (if decl.result.isVoid && !decl.body.endsInTransfer then [.op .returnVoid] else []) := by
  cases h with
  | body hparams hbody => exact ⟨_, _, hparams, hbody, rfl⟩

/-- Around its body, lowering a routine passes through states on the way to the
finished code. -/
theorem Lowers.passes_body (h : Lowers env (.body decl) (.initial env.nest shared decl.info) t)
    (hfinish : t.finish = .ok output) :
    ∃ t₁ m, Lowers env (.seq (decl.params.map .param))
        ((State.initial env.nest shared decl.info).reserveAll decl.body.variableNames) t₁ ∧
      Lowers env (.statement decl.body) t₁ m ∧ t = m.emitsAll
        (if decl.result.isVoid && !decl.body.endsInTransfer then [.op .returnVoid] else []) ∧
      m.Leads t ∧ (t.image decl env output).Passes t₁ ∧ (t.image decl env output).Passes m ∧
      (t.image decl env output).Passes t := by
  have hsteps := h.reaches Slots.valid_empty
  have hoverflow := (Assembler.finish_eq_ok.mp (State.finish_eq_ok hfinish).1).1
  obtain ⟨code, hcoded⟩ := hsteps.holds (Assembler.holds_new shared.pool) hoverflow
  have ht : (t.image decl env output).Passes t :=
    State.passes_image hfinish (hsteps.valid Slots.valid_empty) ⟨_, hcoded⟩
  obtain ⟨t₁, m, hparams, hbody, heq⟩ := h.body_inv
  have hreserve := State.Leads.reserveAll decl.body.variableNames
    (State.initial env.nest shared decl.info)
  have hdeclare := hreserve.trans (hparams.leads (Job.bindsAll_map (fun _ => rfl) decl.params))
  have hend : m.Leads t := by
    rw [heq]
    split_ifs
    · exact .emits (fun _ => ⟨rfl, rfl⟩) rfl
    · exact .refl m
  have hinitial := ht.of_leads (hdeclare.trans ((hbody.leads rfl).trans hend)) Slots.valid_empty
    ⟨[], Assembler.holds_new shared.pool⟩
  have ht₁ := hinitial.between ht hdeclare ((hbody.leads rfl).trans hend)
  exact ⟨t₁, m, hparams, hbody, heq, hend, ht₁, ht₁.between ht (hbody.leads rfl) hend, ht⟩

/-- The machine performs the body of a lowered routine from the start of its code on. -/
theorem Lowers.performs_body (h : Lowers env (.body decl) (.initial env.nest shared decl.info) t)
    (hfinish : t.finish = .ok output) (hnames : (decl.params.map Param.name).Nodup)
    (hstructured : decl.body.Structured decl.result)
    (hargs : List.Forall₂ (fun param value => value.ty = param.ty) decl.params args) :
    ∃ stop after abrupt, (∀ locals log,
        (decl.result.isVoid = true → decl.body.endsInTransfer = false) →
        (t.image decl env output).program.run 1 ⟨stop, [], locals, log⟩ =
          .halted (if decl.result.isVoid then .returned none else .ended) log) ∧
      ∀ fuel, (t.image decl env output).Matches [] after abrupt stop fuel
        (.start output.frameSize (args.map Value.cell)) (decl.evaluate args fuel) := by
  obtain ⟨t₁, m, hparams, hbody, heq, hend, ht₁, hm, ht⟩ := h.passes_body hfinish
  obtain ⟨hcode, hframe⟩ := State.finish_eq_ok hfinish
  have hsize : output.code.chunk.size = t.offset := by
    obtain ⟨code, hcoded⟩ := ht.coded
    exact (hcoded.finish hcode).2.2.2
  have hkeeps := ((State.Keeps.refl (State.initial env.nest shared decl.info)).reserveAll
    decl.body.variableNames).trans hparams.keeps
  -- The arguments are in the frame where the parameters expect them.
  obtain ⟨hassembler₀, hsize₀, hscopes₀⟩ : _ ∧ _ ∧ _ := State.reserveAll_represents
    decl.body.variableNames (show (State.initial env.nest shared decl.info).slots.Represents [[]]
      from Slots.represents_empty)
  have hlocals : ∀ index value, args[index]? = some value →
      (Machine.start output.frameSize (args.map Value.cell)).locals[((State.initial env.nest shared
        decl.info).reserveAll decl.body.variableNames).slots.frameSize + index]? =
          some value.cell := by
    intro index value hvalue
    rw [hsize₀]
    change _[0 + index]? = _
    rw [Nat.zero_add]
    exact Machine.locals_start hvalue
  obtain ⟨hassembler, hsize₁, scope, hscopes, hagrees⟩ := hparams.declares_params hnames
    (fun _ _ => List.forall_mem_nil _) hargs hscopes₀ (.cons .nil .nil) hlocals
  have hlength : args.length ≤ output.frameSize := by
    have hgrows := (((hbody.leads rfl).trans hend).reaches ht₁.valid).frameSize_le
    have hzero : (State.initial env.nest shared decl.info).slots.frameSize = 0 := rfl
    have hargsLength := hargs.length_eq
    omega
  obtain ⟨scope', _, hperforms⟩ := (Image.executed_of_structured hstructured).statement hbody
    (State.hosts_initial hkeeps ht₁) (State.hosts_initial (hkeeps.trans hbody.keeps) hm) hscopes
  have hstart : t₁.offset = 0 := by
    rw [State.offset, hassembler, hassembler₀]
    rfl
  rw [hstart, hkeeps.flows] at hperforms
  refine ⟨m.offset, (t.image decl env output).Frame [scope'], (t.image decl env output).Outer [],
    fun locals log hends => ?_, fun fuel => ?_⟩
  · apply State.passes_end hm _ _ hends
    · rw [← heq]
      exact ht
    · rw [← heq]
      exact hsize
  · exact hperforms fuel ⟨decl.arguments args, []⟩ _ [] ⟨hagrees, Machine.length_start hlength⟩ .nil

theorem Lowers.follows (h : Lowers env (.body decl) (.initial env.nest shared decl.info) t)
    (hfinish : t.finish = .ok output) (hnames : (decl.params.map Param.name).Nodup)
    (hstructured : decl.body.Structured decl.result)
    (hargs : List.Forall₂ (fun param value => value.ty = param.ty) decl.params args) (fuel : Nat) :
    decl.Follows env args ⟨output.code.chunk, t.assembler.pool⟩
      (.start output.frameSize (args.map Value.cell)) fuel := by
  obtain ⟨stop, after, abrupt, hstop, hmatches⟩ :=
    h.performs_body hfinish hnames hstructured hargs
  have hmatch := hmatches fuel
  unfold RoutineDecl.Follows
  have hnormal := hstructured.exec_ne_normal
  cases hexec : decl.evaluate args fuel with
  | mk completion store =>
    rw [hexec] at hmatch
    cases completion with
    | normal =>
      obtain ⟨steps, locals, log, hrun, _, hlog⟩ := hmatch
      have hends : decl.result.isVoid = true → decl.body.endsInTransfer = false := by
        intro _
        by_contra htransfer
        exact hnormal (Bool.of_not_eq_false htransfer) fuel _ (congrArg Prod.fst hexec)
      have hhalts := hstop locals log hends
      rw [← Program.run_trans hrun] at hhalts
      exact .inl ⟨_, steps + 1, log, rfl, hhalts, Image.logs_iff.mp hlog⟩
    | returned value =>
      obtain ⟨steps, log, hrun, hlog⟩ := hmatch
      exact .inl ⟨_, steps, log, rfl, hrun, Image.logs_iff.mp hlog⟩
    | unfinished =>
      obtain ⟨steps, machine, hle, hrun, hlog⟩ := hmatch
      exact .inr ⟨rfl, steps, machine, hle, hrun, Image.logs_iff.mp hlog⟩
    | broke label | continued label =>
      -- No loop is left that a transfer could go to.
      obtain ⟨depth, flow, htarget, _⟩ := hmatch
      cases htarget
    | stuck => exact hmatch.elim

end Routines

namespace Lowering

/-- A routine with a structured body is called with arguments of the types of its
parameters. Then the machine that runs its code behaves like the evaluation of
the body under lexical scoping. -/
theorem routine_behavesAs {decl : RoutineDecl} {env : Env} {shared shared' : Shared}
    {lowered : Routine} {nested : List Routine} {args : List Value}
    (h : routine Handlers.standard.process decl env shared = (.ok (lowered, nested), shared'))
    (hnames : (decl.params.map Param.name).Nodup)
    (hbody : decl.body.Structured decl.result)
    (hargs : List.Forall₂ (fun param value => value.ty = param.ty) decl.params args) :
    decl.BehavesAs env args ⟨lowered.code.chunk, shared'.pool⟩
      (.start lowered.frameSize (args.map Value.cell)) := by
  obtain ⟨t, output, hlowers, hfinish, hresult, rfl⟩ := Derives.routine (Derives.process env) h
  obtain ⟨rfl, rfl⟩ := Prod.mk.inj hresult
  exact RoutineDecl.behavesAs_of_follows fun fuel =>
    hlowers.follows hfinish hnames hbody hargs fuel

/-- The sum of the numbers below `n`, which a static field gets one after the
other. The loop has no condition and is left by name. -/
def sumBelow : RoutineDecl where
  owner := .object "Main"
  name := "sumBelow"
  params := [⟨"n", Ty.int⟩]
  result := Ty.int
  isStatic := true
  body := .block
    [.declareLocal "total" Ty.int (some (.int 0)),
      .forLoop (some "rounds") [.declareLocal "i" Ty.int (some (.int 0))] none
        [.assignLocal "i" Ty.int (.arith .add Ty.int (.readLocal "i" Ty.int) (.int 1))]
        (.block
          [.branch (.compare .ge (.readLocal "i" Ty.int) (.readLocal "n" Ty.int))
            (.breakTo (some "rounds")) none,
          .writeField (.object "Main") "seen" Ty.int none (.readLocal "i" Ty.int),
          .assignLocal "total" Ty.int
            (.arith .add Ty.int (.readLocal "total" Ty.int) (.readLocal "i" Ty.int))]),
      .ret (some (.readLocal "total" Ty.int))]

theorem structured_sumBelow : sumBelow.body.Structured sumBelow.result := by
  have hread (name : String) : (Tree.readLocal name Ty.int).HasType Ty.int := .readLocal (.inl rfl)
  have hadd {left right : Tree} (hleft : left.HasType Ty.int) (hright : right.HasType Ty.int) :
      (Tree.arith .add Ty.int left right).HasType Ty.int := .arith ⟨nofun, nofun⟩ hleft hright
  have hround : Tree.Structured Ty.int (.block
      [.branch (.compare .ge (.readLocal "i" Ty.int) (.readLocal "n" Ty.int))
        (.breakTo (some "rounds")) none,
      .writeField (.object "Main") "seen" Ty.int none (.readLocal "i" Ty.int),
      .assignLocal "total" Ty.int
        (.arith .add Ty.int (.readLocal "total" Ty.int) (.readLocal "i" Ty.int))]) := by
    apply Tree.Structured.block
    simp only [List.forall_mem_cons]
    exact ⟨.branch (.compare (hread "i") (hread "n")) .breakTo nofun, .writeField (hread "i"),
      .assignLocal (hadd (hread "total") (hread "i")), nofun⟩
  apply Tree.Structured.block
  simp only [List.forall_mem_cons]
  refine ⟨.declareLocal (.int 0), .forLoop ?_ nofun ?_ ?_ hround, .returnValue (hread "total"),
    nofun⟩
  · exact List.forall_mem_singleton.mpr (.declareLocal (.int 0))
  · exact List.forall_mem_singleton.mpr (.assignLocal (hadd (hread "i") (.int 1)))
  · exact List.forall_mem_singleton.mpr rfl

/-- Called with three, the machine writes the numbers below three and returns their
sum. -/
theorem routine_behavesAs_sumBelow :
    ∃ lowered nested shared', routine Handlers.standard.process sumBelow ⟨.empty, {}⟩ .empty =
        (.ok (lowered, nested), shared') ∧
      ∃ steps, Program.run ⟨lowered.code.chunk, shared'.pool⟩ steps
          (.start lowered.frameSize [3]) = .halted (.returned (some 3))
            ([0, 1, 2].map fun value =>
              (Digest.ofField (Ty.object "Main").digest "seen", value)) := by
  generalize hresult : routine Handlers.standard.process sumBelow _ _ = result
  obtain ⟨lowered, shared', rfl⟩ := exists_ok hresult (by decide +kernel)
  have hargs : List.Forall₂ (fun param value => value.ty = param.ty) sumBelow.params
    [Value.int 3] := .cons rfl .nil
  have hbehaves := routine_behavesAs hresult (by decide) structured_sumBelow hargs
  exact ⟨lowered.1, lowered.2, shared', rfl, (hbehaves.halts _ _).mpr ⟨5, by rfl, by rfl⟩⟩

end Lowering

end StackLowering
