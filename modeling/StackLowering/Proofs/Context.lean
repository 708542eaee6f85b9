import StackLowering.Proofs.Inversion
/-!
Lowering restores its context. When a job is done, the loops and switches around
the code, the pending cleanups, the nesting of values and the stored data are
what they were before it.
-/

namespace StackLowering

/-- The state has the context that another one had. -/
structure State.Keeps (s s' : State) : Prop where
  flows : s'.flows = s.flows
  cleanups : s'.cleanups = s.cleanups
  depth : s'.expressionDepth = s.expressionDepth
  data : s'.data = s.data

namespace State.Keeps

variable {s m s' : State}

theorem refl (s : State) : s.Keeps s := ⟨rfl, rfl, rfl, rfl⟩

theorem trans (h : s.Keeps m) (h' : m.Keeps s') : s.Keeps s' where
  flows := h'.flows.trans h.flows
  cleanups := h'.cleanups.trans h.cleanups
  depth := h'.depth.trans h.depth
  data := h'.data.trans h.data

theorem emits (h : s.Keeps m) (call : Call) : s.Keeps (m.emits call) :=
  h.trans ⟨rfl, rfl, rfl, rfl⟩

theorem emitsAll (h : s.Keeps m) (calls : List Call) : s.Keeps (m.emitsAll calls) := by
  induction calls generalizing m with
  | nil => exact h
  | cons call rest ih => exact ih (h.emits call)

theorem newLabels (h : s.Keeps m) (count : Nat) : s.Keeps (m.newLabels count) := by
  induction count with
  | zero => exact h
  | succ count ih => exact ih.emits .newLabel

theorem onSlots (h : s.Keeps m) (f : Slots → Slots) : s.Keeps (m.onSlots f) :=
  h.trans ⟨rfl, rfl, rfl, rfl⟩

theorem withSlots (h : s.Keeps m) (slots : Slots) : s.Keeps (m.withSlots slots) :=
  h.trans ⟨rfl, rfl, rfl, rfl⟩

theorem reserveAll (h : s.Keeps m) (names : List String) : s.Keeps (m.reserveAll names) := by
  induction names generalizing m with
  | nil => exact h
  | cons name rest ih => exact ih (h.onSlots _)

theorem discard (h : s.Keeps m) (ty : Ty) : s.Keeps (m.discard ty) := by
  unfold State.discard
  split_ifs
  · exact h
  · exact h.emits (.pop ty.width)

theorem enterScope (h : s.Keeps m) : s.Keeps m.enterScope := (h.emits .enterFrame).onSlots _

theorem exitScope (h : s.Keeps m) : s.Keeps m.exitScope := (h.onSlots _).emits .exitFrame

theorem rewrites {env : Env} {tree rewritten : Tree} (h : s.Keeps m)
    (hrewrites : Rewrites env m tree rewritten s') : s.Keeps s' := by
  cases hrewrites with
  | indexed => exact (h.withSlots _).withSlots _
  | iterator | synchronized | hashed => exact h.withSlots _

theorem inFlow {flow : Flow} (h : (s.pushFlow flow).Keeps m) : s.Keeps m.popFlow where
  flows := by
    rw [State.popFlow, h.flows]
    rfl
  cleanups := h.cleanups
  depth := h.depth
  data := h.data

theorem inCleanup {cleanup : Option Tree} (h : (s.pushCleanup? cleanup).Keeps m) :
    s.Keeps (m.popCleanup? cleanup) := by
  cases cleanup with
  | none => exact h
  | some body =>
    refine ⟨h.flows, ?_, h.depth, h.data⟩
    change m.cleanups.dropLast = s.cleanups
    rw [h.cleanups]
    exact List.dropLast_concat

end State.Keeps

theorem State.bridged_keeps {env : Env} {s t : State} {access : Tree} {use : Option Tree}
    (h : s.bridged env access = (use, t)) : ∃ bridges, t = { s with bridges := bridges } := by
  unfold State.bridged at h
  split_ifs at h
  · split at h
    · rename_i bridges _
      cases h
      exact ⟨bridges, rfl⟩
    · cases h
      exact ⟨s.bridges, rfl⟩
  · cases h
    exact ⟨s.bridges, rfl⟩

namespace Lowers

/-- Every job leaves the context as it found it. -/
theorem keeps {env : Env} {job : Job} {s s' : State} (h : Lowers env job s s') : s.Keeps s' := by
  induction h with
  | value _ ih =>
    refine ⟨ih.flows, ih.cleanups, ?_, ih.data⟩
    have hdepth := ih.depth
    simp only [State.exitExpression, State.enterExpression] at hdepth ⊢
    omega
  | statement _ ih => exact ⟨ih.flows, ih.cleanups, rfl, ih.data⟩
  | inScope _ ih => exact ((State.Keeps.refl _).enterScope.trans ih).exitScope
  | nil => exact .refl _
  | cons _ _ ih ih' => exact ih.trans ih'
  | operation _ _ ih => exact ((((State.Keeps.refl _).emitsAll _).trans ih).emitsAll _).discard _
  | bridged _ hbridged _ ih =>
    obtain ⟨bridges, rfl⟩ := State.bridged_keeps hbridged
    exact ⟨ih.flows, ih.cleanups, ih.depth, ih.data⟩
  | rewritten hrewrites _ ih =>
    exact ((((State.Keeps.refl _).onSlots _).rewrites hrewrites).trans ih).onSlots _
  | enumSwitch _ _ ih => exact ih
  | block _ ih => exact ih
  | declared => exact (State.Keeps.refl _).withSlots _
  | initialized _ _ _ ih => exact (ih.withSlots _).emits _
  | sameJumps _ _ _ ih ih' => exact ih.trans ih'
  | skipJumps _ _ _ ih ih' => exact ((((State.Keeps.refl _).emits _).trans ih).trans ih').emits _
  | notJumps _ ih => exact ih
  | literalJumps => exact (State.Keeps.refl _).emits _
  | literalSkips => exact .refl _
  | testJumps _ _ ih => exact ih.emits _
  | logical _ ih => exact ((((State.Keeps.refl _).newLabels _).trans ih).emitsAll _).discard _
  | cleanup htaken _ ih =>
    refine ⟨ih.flows, ?_, ih.depth, ih.data⟩
    rw [State.restoreCleanups, ih.cleanups, ← htaken]
    exact List.take_append_drop _ _
  | noCleanup => exact .refl _
  | cleanups _ ih => exact ih
  | leave _ _ ih => exact ih.emits _
  | returnVoid _ ih => exact ih.emits _
  | returnValue _ _ _ ih => exact ih.emits _
  | returnSaved _ _ _ _ _ ih ih' =>
    exact (((((ih.onSlots _).withSlots _).withSlots _).emits _).trans ih').emitsAll _ |>.onSlots _
  | @branch _ _ _ _ _ s _ _ _ _ _ hmiss _ _ _ _ ih₁ ih₂ ih₃ ih₄ =>
    obtain ⟨count, rfl⟩ := hmiss.newLabels
    have hstart := ((State.Keeps.refl s).newLabels 4).newLabels count
    exact (((((((hstart.emits _).trans ih₁).emits _).trans ih₂).trans ih₃).trans ih₄).emits _)
  | noDetour => exact .refl _
  | detour _ ih => exact (((State.Keeps.refl _).emits _).trans ih).emits _
  | noElse => exact .refl _
  | hasElse _ ih => exact ((State.Keeps.refl _).emitsAll _).trans ih
  | forLoop _ _ _ _ ih₁ ih₂ ih₃ ih₄ =>
    have hround := (((State.Keeps.refl _).emits _).trans ih₂).emits _ |>.trans ih₃
    have hloop := (hround.inFlow.emits _).trans ih₄
    have hstart := ((State.Keeps.refl _).enterScope.trans ih₁).newLabels 4
    exact (((hstart.emits _).trans hloop).emits _).exitScope
  | whileLoop _ _ ih₁ ih₂ =>
    have hround := ((State.Keeps.refl _).emits _).trans ih₁
    have hloop := (hround.inFlow.emits _).trans ih₂
    exact ((((State.Keeps.refl _).newLabels 4).emitsAll _).trans hloop).emits _
  | tested _ ih => exact ih
  | endless => exact (State.Keeps.refl _).emits _
  | intSwitch _ _ _ _ _ htargets _ _ ih₁ ih₂ ih₃ =>
    obtain ⟨count, rfl⟩ := State.newLabels_of_armTargets htargets
    have hround := (((((ih₁.newLabels count).emitsAll _).trans ih₂).emits _).trans ih₃).inFlow
    exact ((((State.Keeps.refl _).newLabels 4).emits _).trans hround).emits _
  | sharedArm => exact .refl _
  | arm _ _ ih => exact ((State.Keeps.refl _).emits _).trans ih
  | guarded _ _ _ _ ih₁ ih₂ ih₃ ih₄ =>
    have hbody := (((State.Keeps.refl _).emits _).trans ih₁).emits _ |>.trans ih₂
    have hregion := ((hbody.emits _).trans ih₃).inCleanup
    exact ((((State.Keeps.refl _).newLabels 3).trans hregion).trans ih₄).emits _
  | noClauses => exact .refl _
  | clause _ _ _ _ _ ih₁ ih₂ ih₃ =>
    have hclause := ((((State.Keeps.refl _).emitsAll _).enterScope.withSlots _).emits _).trans ih₁
    have hdone := (hclause.exitScope.emits _).trans ih₂
    exact (((State.Keeps.refl _).newLabels 2).trans hdone).emits _ |>.trans ih₃
  | noCatchAll => exact .refl _
  | catchAll ht _ _ ih =>
    subst ht
    have hbody := ((((State.Keeps.refl _).onSlots _).withSlots _).withSlots _).emits _ |>.trans ih
    have hstart := (((State.Keeps.refl _).newLabels 1).emitsAll _).trans hbody
    exact (hstart.emitsAll _).onSlots _
  | bodiless => exact .refl _
  | localRoutine => exact ⟨rfl, rfl, rfl, rfl⟩
  | param => exact (State.Keeps.refl _).withSlots _
  | body _ _ ih ih' => exact ((((State.Keeps.refl _).reserveAll _).trans ih).trans ih').emitsAll _

end Lowers

end StackLowering
