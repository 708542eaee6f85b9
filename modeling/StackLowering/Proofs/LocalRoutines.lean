import StackLowering.Proofs.CleanupCopies
/-!
Routines declared in bodies. A local routine is compiled whenever the tree that declares
it is lowered, and what was compiled before stays in front. A cleanup is lowered once for
every way out of its region, so a local routine in it is compiled that often.
-/

namespace StackLowering

/-- The routine is what the method is compiled to as a routine of `owner`. -/
def Compiled (env : Env) (owner : Ty) (method : Method) (routine : Routine) : Prop :=
  ∃ decl shared t output, RoutineDecl.ofMethod? owner method = some decl ∧
    Lowers env (.body decl) (.initial env.nest shared decl.info) t ∧ t.finish = .ok output ∧
    routine = (Lowering.assembleRoutine decl output).1

namespace State

theorem localRoutines_emitsAll (calls : List Call) (s : State) :
    (s.emitsAll calls).localRoutines = s.localRoutines := by
  induction calls generalizing s with
  | nil => rfl
  | cons call rest ih => exact ih (s.emits call)

theorem localRoutines_newLabels (count : Nat) (s : State) :
    (s.newLabels count).localRoutines = s.localRoutines := by
  induction count with
  | zero => rfl
  | succ count ih => exact ih

theorem localRoutines_reserveAll (names : List String) (s : State) :
    (s.reserveAll names).localRoutines = s.localRoutines := by
  induction names generalizing s with
  | nil => rfl
  | cons name rest ih => exact ih (s.onSlots (·.reserve name))

theorem localRoutines_discard (ty : Ty) (s : State) :
    (s.discard ty).localRoutines = s.localRoutines := by
  unfold discard
  split_ifs <;> rfl

theorem localRoutines_of_finish {s : State} {output : RoutineOutput} (h : s.finish = .ok output) :
    output.localRoutines = s.localRoutines := by
  obtain ⟨code, _, hcode⟩ := bind_eq_ok.mp h
  cases hcode
  rfl

end State

open State

/-- Local routines are only added. -/
theorem Lowers.localRoutines_grow {env : Env} {job : Job} {s s' : State}
    (h : Lowers env job s s') : s.localRoutines <+: s'.localRoutines := by
  induction h with
  | value _ ih | statement _ ih | inScope _ ih | enumSwitch _ _ ih | block _ ih | notJumps _ ih
    | initialized _ _ _ ih | testJumps _ _ ih | cleanups _ ih | leave _ _ ih | returnVoid _ ih
    | returnValue _ _ _ ih | detour _ ih | hasElse _ ih | tested _ ih | arm _ _ ih
    | cleanup _ _ ih => exact ih
  | cons _ _ ih ih' | sameJumps _ _ _ ih ih' | skipJumps _ _ _ ih ih'
    | returnSaved _ _ _ _ _ ih ih' => exact ih.trans ih'
  | operation _ _ ih =>
    rw [localRoutines_emitsAll] at ih
    rwa [localRoutines_discard, localRoutines_emitsAll]
  | bridged _ hbridged _ ih =>
    obtain ⟨bridges, rfl⟩ := State.bridged_keeps hbridged
    exact ih
  | rewritten hrewrites _ ih => cases hrewrites <;> exact ih
  | logical _ ih =>
    rw [localRoutines_newLabels] at ih
    rwa [localRoutines_discard, localRoutines_emitsAll]
  | @branch _ _ _ _ _ s _ _ _ _ _ hmiss _ _ _ _ ih₁ ih₂ ih₃ ih₄ =>
    obtain ⟨count, rfl⟩ := hmiss.newLabels
    have hstart : (((s.newLabels 4).newLabels count).emits (.bind (s.label 0))).localRoutines =
        s.localRoutines := (localRoutines_newLabels count _).trans (localRoutines_newLabels 4 s)
    rw [hstart] at ih₁
    exact ((ih₁.trans ih₂).trans ih₃).trans ih₄
  | @forLoop _ _ _ _ _ _ m₁ _ _ _ _ _ _ _ ih₁ ih₂ ih₃ ih₄ =>
    change (m₁.newLabels 4).localRoutines <+: _ at ih₂
    rw [localRoutines_newLabels] at ih₂
    exact ((ih₁.trans ih₂).trans ih₃).trans ih₄
  | @whileLoop _ _ _ _ s _ _ _ _ ih₁ ih₂ =>
    change ((s.newLabels 4).emitsAll _).localRoutines <+: _ at ih₁
    rw [localRoutines_emitsAll, localRoutines_newLabels] at ih₁
    exact ih₁.trans ih₂
  | @intSwitch _ _ _ _ _ _ _ _ _ s m₁ _ _ _ _ _ _ _ _ htargets _ _ ih₁ ih₂ ih₃ =>
    obtain ⟨count, rfl⟩ := State.newLabels_of_armTargets htargets
    change (s.newLabels 4).localRoutines <+: _ at ih₁
    change (m₁.newLabels count).localRoutines <+: _ at ih₂
    rw [localRoutines_newLabels] at ih₁ ih₂
    exact (ih₁.trans ih₂).trans ih₃
  | @guarded _ _ cleanup _ s _ _ _ _ _ _ _ _ ih₁ ih₂ ih₃ ih₄ =>
    cases cleanup <;> exact ((ih₁.trans ih₂).trans ih₃).trans ih₄
  | @clause _ _ _ _ _ _ _ _ _ _ s _ _ _ _ _ _ _ _ ih₁ ih₂ ih₃ =>
    change ((s.newLabels 2).emitsAll _).localRoutines <+: _ at ih₁
    rw [localRoutines_emitsAll, localRoutines_newLabels] at ih₁
    exact (ih₁.trans ih₂).trans ih₃
  | @catchAll _ _ _ _ s t _ ht _ _ ih =>
    have hstart : t.localRoutines = s.localRoutines := by
      rw [ht]
      exact (localRoutines_emitsAll _ _).trans (localRoutines_newLabels 1 s)
    exact hstart ▸ ih
  | localRoutine => exact List.prefix_append _ _
  | body _ _ ih ih' =>
    rw [localRoutines_reserveAll] at ih
    rw [localRoutines_emitsAll]
    exact ih.trans ih'
  | _ => exact List.prefix_rfl

/-- From one list of routines to the other, routines are added. So many of them are what
the method is compiled to. -/
def Repeats (env : Env) (owner : Ty) (method : Method) (count : Nat)
    (routines routines' : List Routine) : Prop :=
  ∃ copies added : List Routine, copies.length = count ∧
    (∀ copy ∈ copies, Compiled env owner method copy) ∧ routines' = routines ++ added ∧
    copies.Sublist added

namespace Repeats

variable {env : Env} {owner : Ty} {method : Method} {count count' : Nat} {a b c : List Routine}

theorem of_grow (h : a <+: b) : Repeats env owner method 0 a b := by
  obtain ⟨added, rfl⟩ := h
  exact ⟨[], added, rfl, List.forall_mem_nil _, rfl, List.nil_sublist _⟩

theorem trans (h : Repeats env owner method count a b) (h' : Repeats env owner method count' b c) :
    Repeats env owner method (count + count') a c := by
  obtain ⟨copies, added, rfl, hcompiled, rfl, hadded⟩ := h
  obtain ⟨copies', added', rfl, hcompiled', rfl, hadded'⟩ := h'
  exact ⟨copies ++ copies', added ++ added', List.length_append,
    List.forall_mem_append.mpr ⟨hcompiled, hcompiled'⟩, List.append_assoc a added added',
    hadded.append hadded'⟩

end Repeats

theorem State.Keeps.currentType {s s' : State} (h : s.Keeps s') :
    s'.currentType = s.currentType := by
  rw [State.currentType, h.data]
  rfl

namespace Lowers

variable {env : Env} {s s' : State} {outer : List Cleanup} {c : Cleanup} {method : Method}
  {owner : Ty} {catches : List Catch}

theorem copy_repeats (h : Lowers env (.inScope (.localRoutine method)) s s')
    (hbody : method.body.isSome = true) (howner : s.currentType = owner) :
    Repeats env owner method 1 s.localRoutines s'.localRoutines := by
  subst howner
  cases h with
  | inScope h =>
    cases h with
    | statement h =>
      cases h with
      | bodiless hdecl =>
        rw [Option.map_eq_none_iff.mp hdecl] at hbody
        cases hbody
      | localRoutine hdecl hlowers houtput =>
        exact ⟨[_], _, rfl, List.forall_mem_singleton.mpr ⟨_, _, _, _, hdecl, hlowers, houtput, rfl⟩,
          rfl, List.singleton_sublist.mpr List.mem_cons_self⟩
      | operation hother =>
        cases hother with
        | access haccess => cases haccess
      | bridged hother | rewritten hother | leave hother => cases hother

section Cleanup

variable (hc : c.body = .localRoutine method) (hbody : method.body.isSome = true)

include hc hbody

theorem cleanups_repeats (h : Lowers env (.cleanups outer.length) s s')
    (hs : s.cleanups = outer ++ [c]) (howner : s.currentType = owner) :
    Repeats env owner method 1 s.localRoutines s'.localRoutines := by
  obtain ⟨m, hcopy, hrest⟩ := h.innermost_first hs le_rfl
  rw [Nat.sub_self] at hrest
  cases hrest
  rw [hc] at hcopy
  exact hcopy.copy_repeats hbody howner

/-- Behind each clause there is a copy of the cleanup. -/
theorem clauses_repeats {start stop exit : Label} {ranges : List (Label × Label)}
    (h : Lowers env (.clauses start stop exit outer.length catches ranges) s s')
    (hs : s.cleanups = outer ++ [c]) (howner : s.currentType = owner) :
    Repeats env owner method catches.length s.localRoutines s'.localRoutines := by
  induction catches generalizing s ranges with
  | nil => exact .of_grow h.localRoutines_grow
  | cons clause rest ih =>
    cases h with
    | @clause _ _ _ _ _ _ _ _ _ _ _ m m' _ _ _ hclause hcopies hrest =>
      have hgrow := hclause.localRoutines_grow
      change ((s.newLabels 2).emitsAll _).localRoutines <+: _ at hgrow
      rw [localRoutines_emitsAll, localRoutines_newLabels] at hgrow
      have hcaught : s.Keeps (m.exitScope.emits (.bind (s.label 1))) := by
        refine Keeps.emits (Keeps.exitScope (Keeps.trans ?_ hclause.keeps)) _
        exact ((((Keeps.refl s).newLabels 2).emitsAll _).enterScope.withSlots _).emits _
      have hleft := (hcaught.trans hcopies.keeps).emits (.jump .jump exit)
      have hcopy := hcopies.cleanups_repeats hc hbody (hcaught.cleanups.trans hs)
        (hcaught.currentType.trans howner)
      have hothers := ih hrest (hleft.cleanups.trans hs) (hleft.currentType.trans howner)
      have hclauses := (Repeats.of_grow hgrow).trans (hcopy.trans hothers)
      rwa [Nat.zero_add, Nat.add_comm] at hclauses

end Cleanup

/-- A region whose cleanup declares a routine compiles it once behind its body, once behind
each clause and once in the handler of all exceptions. -/
theorem guarded_repeats {body : Tree}
    (h : Lowers env (.tree (.guarded body catches (some (.localRoutine method)))) s s')
    (hbody : method.body.isSome = true) (howner : s.currentType = owner) :
    Repeats env owner method (catches.length + 2) s.localRoutines s'.localRoutines := by
  cases h with
  | @guarded _ _ _ _ _ m₁ m₂ m₃ m₄ hregion hcopies hclauses hhandler =>
    have hentered : Keeps _ (m₁.emits (.bind (s.label 1))) := hregion.keeps.emits _
    have hpending : m₁.cleanups = s.cleanups ++ [⟨.localRoutine method, _⟩] := hentered.cleanups
    have hinside : m₁.currentType = owner := hentered.currentType.trans howner
    have hcopy := hcopies.cleanups_repeats rfl hbody hpending hinside
    have hbehind := hcopies.keeps.emits (.jump .jump (s.label 2))
    have hothers := hclauses.clauses_repeats rfl hbody (hbehind.cleanups.trans hpending)
      (hbehind.currentType.trans hinside)
    have hleft := hbehind.trans hclauses.keeps
    have hlast : m₃.pending? (some (.localRoutine method)) = some (.localRoutine method) := by
      change m₃.cleanups.getLast?.map Cleanup.body = _
      rw [hleft.cleanups.trans hpending, List.getLast?_concat]
      rfl
    rw [hlast] at hhandler
    cases hhandler with
    | @catchAll _ _ _ _ _ t _ ht _ hcleanup =>
      have hstart : (m₃.popCleanup? (some (.localRoutine method))).Keeps t := by
        rw [ht]
        exact (((Keeps.refl _).newLabels 1).emitsAll _).onSlots _
      have hrethrown := hcleanup.copy_repeats hbody
        (hstart.currentType.trans (hleft.currentType.trans hinside))
      have hroutines : t.localRoutines = m₃.localRoutines := by
        rw [ht]
        exact (localRoutines_emitsAll _ _).trans (localRoutines_newLabels 1 _)
      have htotal := (Repeats.of_grow hregion.localRoutines_grow).trans
        (hcopy.trans (hothers.trans (hroutines ▸ hrethrown)))
      rwa [Nat.zero_add, Nat.add_comm 1] at htotal
  | operation hother => cases hother.not_isControl
  | bridged hother | rewritten hother | leave hother => cases hother

end Lowers

namespace Lowering

/-- A routine whose body is a region comes with the routine of its cleanup several times. -/
theorem routine_repeats {env : Env} {decl : RoutineDecl} {shared shared' : Shared}
    {lowered : Routine} {locals : List Routine} {body : Tree} {catches : List Catch}
    {method : Method}
    (h : routine Handlers.standard.process decl env shared = (.ok (lowered, locals), shared'))
    (hregion : decl.body = .guarded body catches (some (.localRoutine method)))
    (hbody : method.body.isSome = true) :
    Repeats env decl.owner method (catches.length + 2) [] locals := by
  have hrecur : Derives env Handlers.standard.process := Derives.process env
  obtain ⟨t, output, hlowers, hfinish, hresult, _⟩ := hrecur.routine h
  obtain ⟨t₁, m, hparams, hstatement, rfl⟩ := hlowers.body_inv
  have hstart := ((Keeps.refl (.initial env.nest shared decl.info)).reserveAll _).trans hparams.keeps
  have howner : t₁.currentType = decl.owner := State.currentType_of_data hstart.data
  have hgrow := hparams.localRoutines_grow
  rw [localRoutines_reserveAll] at hgrow
  rw [hregion] at hstatement
  cases hstatement with
  | @statement _ _ m htree =>
    have hlocals : locals = m.localRoutines := by
      rw [(Prod.mk.inj hresult).2]
      exact (localRoutines_of_finish hfinish).trans (localRoutines_emitsAll _ _)
    have htotal := (Repeats.of_grow hgrow).trans (htree.guarded_repeats hbody howner)
    rwa [Nat.zero_add, ← hlocals] at htotal

/-- A region whose cleanup declares a routine. -/
def guardedHelper : RoutineDecl where
  owner := .object "demo.Main"
  name := "run"
  params := []
  result := .void
  isStatic := true
  body := .guarded (.writeField (.object "demo.Log") "value" Ty.int none (.int 1)) []
    (some (.localRoutine ⟨"helper", .privateFlag ||| .staticFlag, .void, [], some (.ret none)⟩))

/-- The routine is compiled twice, although it is declared once. -/
theorem guardedHelper_compiled_twice :
    (routine Handlers.standard.process guardedHelper ⟨.empty, {}⟩ .empty).1.toOption.map
      (·.2.map Routine.name) = some ["helper", "helper"] := by decide +kernel

end Lowering

end StackLowering
