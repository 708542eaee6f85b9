import StackLowering.Proofs.Correctness
/-!
Exceptions and cleanups. An exception continues at the handler of the first
entry of the table that covers the instruction raising it. The handler of a
cleanup protects the body of its region, and with it the copy of the cleanup that
a return from the body runs on its way. So where this copy raises an exception,
the cleanup is started once more. The copy in the handler itself stands behind the
protected code.
-/

namespace StackLowering

/-- The entry protects the instruction at the offset. -/
def ExceptionEntry.covers (entry : ExceptionEntry) (offset : Nat) : Bool :=
  decide (entry.start ≤ offset) && decide (offset < entry.stop)

/-- Where an exception continues that is raised at the offset. -/
def Code.handler? (code : Code) (offset : Nat) : Option Nat :=
  (code.exceptions.find? (·.covers offset)).map ExceptionEntry.handler

/-- Calls may raise an exception. -/
def Opcode.mayRaise : Opcode → Bool
  | invokeStatic | invokeVirtual | invokeInterface | invokeSpecial | create | raise => true
  | _ => false

/-- What an instruction calls. -/
def InstructionOf.callee? (pool : Pool) (instruction : Instruction) : Option Constant :=
  match instruction.operand with
  | .invoke constant _ | .create _ constant _ => pool.get? constant.toNat
  | _ => none

/-- Where control is in a routine, and what has been called so far. -/
structure Control where
  pc : Nat
  calls : List Constant
deriving DecidableEq

/-- Control goes on behind an instruction, at one of its targets, or at the
handler of an exception that the instruction raises. -/
inductive Code.Step (code : Code) (pool : Pool) : Control → Control → Prop
  | next {control : Control} {instruction : Instruction} {next : Nat}
      (hat : code.chunk.decode? control.pc = some (instruction, next))
      (hnext : instruction.op.fallsThrough = true) :
      Step code pool control ⟨next, control.calls ++ (instruction.callee? pool).toList⟩
  | jump {control : Control} {instruction : Instruction} {next target : Nat}
      (hat : code.chunk.decode? control.pc = some (instruction, next))
      (htarget : target ∈ instruction.operand.targets) :
      Step code pool control ⟨target, control.calls⟩
  | raise {control : Control} {instruction : Instruction} {next handler : Nat}
      (hat : code.chunk.decode? control.pc = some (instruction, next))
      (hraises : instruction.op.mayRaise = true)
      (hhandler : code.handler? control.pc = some handler) :
      Step code pool control ⟨handler, control.calls ++ (instruction.callee? pool).toList⟩

/-- Go on behind the instruction, or raise an exception there. -/
def Code.follow? (code : Code) (pool : Pool) (control : Control) (raises : Bool) : Option Control :=
  match code.chunk.decode? control.pc with
  | none => none
  | some (instruction, next) =>
    let calls := control.calls ++ (instruction.callee? pool).toList
    if raises then
      if instruction.op.mayRaise then (code.handler? control.pc).map (⟨·, calls⟩) else none
    else if instruction.op.fallsThrough then some ⟨next, calls⟩ else none

variable {code : Code} {pool : Pool}

theorem Code.step_of_follow? {control control' : Control} {raises : Bool}
    (h : code.follow? pool control raises = some control') :
    code.Step pool control control' := by
  unfold follow? at h
  split at h
  · cases h
  · rename_i hat
    split_ifs at h with _ hraises hnext
    · obtain ⟨handler, hhandler, rfl⟩ := Option.map_eq_some_iff.mp h
      exact .raise hat hraises hhandler
    · cases h
      exact .next hat hnext

theorem Code.steps_of_follow? {control control' : Control} {choices : List Bool}
    (h : choices.foldlM (code.follow? pool) control = some control') :
    Relation.ReflTransGen (code.Step pool) control control' := by
  induction choices generalizing control with
  | nil =>
    cases h
    exact .refl
  | cons raises rest ih =>
    obtain ⟨m, hstep, hrest⟩ := Option.bind_eq_some_iff.mp h
    exact .head (step_of_follow? hstep) (ih hrest)

theorem State.Steps.regions {s s' : State} {closed : Bool} (h : Steps closed s s') :
    s.assembler.regions.toList <+: s'.assembler.regions.toList := by
  induction h with
  | refl => exact List.prefix_rfl
  | emits _ _ ih | exits _ _ ih => exact ih.trans ⟨_, (Call.regions_run _ _).symm⟩
  | slots _ _ ih | routines _ _ _ ih | forget _ ih => exact ih
  | context _ hcore ih =>
    rw [(Prod.mk.inj hcore).1]
    exact ih

/-- The body of a region with a cleanup starts here. -/
def State.enterGuarded (s : State) (cleanup : Tree) : State :=
  ((s.newLabels 3).pushCleanup cleanup).emits (.bind (s.label 0))

/-- The copies of the cleanups start with the innermost one, with the others
around it pending. -/
theorem Lowers.innermost_first {env : Env} {c : Cleanup} {outer : List Cleanup} {s s' : State}
    {start : Nat} (h : Lowers env (.cleanups start) s s')
    (hs : s.cleanups = outer ++ [c]) (hstart : start ≤ outer.length) :
    ∃ m, Lowers env (.inScope c.body) { s with cleanups := outer } m ∧
      Lowers env (.seq ((List.range (outer.length - start)).map fun i =>
        .cleanup (outer.length - (i + 1)))) (m.restoreCleanups [c]) s' := by
  cases h with
  | cleanups hcopies =>
    have hlength : s.cleanups.length = outer.length + 1 := by
      rw [hs, List.length_append, List.length_singleton]
    have hjobs : cleanupJobs start s.cleanups.length = .cleanup outer.length ::
        (List.range (outer.length - start)).map fun i => .cleanup (outer.length - (i + 1)) := by
      rw [cleanupJobs, hlength, Nat.succ_sub hstart, List.range_succ_eq_map, List.map_cons,
        List.map_map]
      rfl
    rw [hjobs] at hcopies
    cases hcopies with
    | cons hcopy hrest =>
      have hlast : s.cleanups.drop outer.length = [c] := by rw [hs, List.drop_left]
      cases hcopy with
      | noCleanup htaken => cases hlast.symm.trans htaken
      | @cleanup _ _ _ _ m htaken hbody =>
        cases hlast.symm.trans htaken
        rw [State.takeCleanups, hs, List.take_left] at hbody
        exact ⟨m, hbody, hrest⟩

namespace Lowering

/-- Calls a method that may raise an exception, and returns. -/
def guardedReturn : RoutineDecl where
  owner := .object "demo.Main"
  name := "run"
  params := []
  result := .void
  isStatic := true
  body := .guarded
    (.block [.invoke .static (.object "demo.Main") ⟨"risky", .void, []⟩ none [], .ret none]) []
    (some (.invoke .static (.object "demo.Main") ⟨"cleanup", .void, []⟩ none []))

/-- If the cleanup raises an exception when the routine returns, it is called again. -/
theorem guardedReturn_cleans_twice :
    ∃ lowered nested shared', routine Handlers.standard.process guardedReturn ⟨.empty, {}⟩ .empty =
        (.ok (lowered, nested), shared') ∧
      ∃ pc, Relation.ReflTransGen (lowered.code.Step shared'.pool) ⟨0, []⟩
        ⟨pc, ["risky", "cleanup", "cleanup"].map fun name =>
          .digest (Digest.ofMethod (Ty.object "demo.Main").digest name [])⟩ := by
  generalize hresult : routine Handlers.standard.process guardedReturn _ _ = result
  obtain ⟨lowered, shared', rfl⟩ := exists_ok hresult (by decide +kernel)
  -- The second call is the one that raises an exception.
  have hfollows : _ = [false, true, false, false].foldlM
      (lowered.1.code.follow? shared'.pool) ⟨0, []⟩ :=
    congrArg (fun result => result.1.toOption.bind fun lowered =>
      [false, true, false, false].foldlM (lowered.1.code.follow? result.2.pool) ⟨0, []⟩) hresult
  exact ⟨lowered.1, lowered.2, shared', rfl, 24,
    Code.steps_of_follow? (hfollows.symm.trans (by decide +kernel))⟩

end Lowering

end StackLowering
