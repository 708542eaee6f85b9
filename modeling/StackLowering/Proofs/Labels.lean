import StackLowering.Proofs.Context
/-!
Which labels a job binds. Apart from the labels it is told to bind, a job only
binds labels that it hands out itself. So a label that waits for its position
gets it from the handler that asked for the label, and keeps it.
-/

namespace StackLowering

variable {label : Label}

namespace State

/-- Number of labels handed out. -/
def labelCount (s : State) : Nat := s.assembler.positions.size

/-- Of the labels that were there, only these may be bound on the way. -/
structure BindsOnly (labels : List Label) (s s' : State) : Prop where
  count : s.labelCount ≤ s'.labelCount
  kept : ∀ label : Label, label.id < s.labelCount → label ∉ labels →
    s'.assembler.position? label = s.assembler.position? label

/-- The label is handed out and not bound yet. -/
structure Pending (label : Label) (s : State) : Prop where
  known : label.id < s.labelCount
  unbound : s.assembler.position? label = none

theorem le_label (index : Nat) (s : State) : s.labelCount ≤ (s.label index).id :=
  Nat.le_add_right _ _

theorem labelCount_newLabels (count : Nat) (s : State) :
    (s.newLabels count).labelCount = s.labelCount + count := size_newLabels count s

theorem pending_newLabels (s : State) {index count : Nat} (h : index < count) :
    (s.newLabels count).Pending (s.label index) := by
  induction count with
  | zero => cases h
  | succ count ih =>
    have hcount := labelCount_newLabels count s
    refine ⟨?_, ?_⟩
    · rw [labelCount_newLabels]
      exact Nat.add_lt_add_left h _
    · change ((s.newLabels count).assembler.positions.push none)[(s.label index).id]?.join = none
      rw [Array.getElem?_push]
      split_ifs with hlast
      · rfl
      · have hlt : index < count := by
          have hne : s.labelCount + index ≠ (s.newLabels count).labelCount := hlast
          omega
        exact (ih hlt).unbound

namespace BindsOnly

variable {labels inner : List Label} {s m s' t : State}

theorem refl (labels : List Label) (s : State) : BindsOnly labels s s :=
  ⟨Nat.le_refl _, fun _ _ _ => rfl⟩

section

variable (h : BindsOnly labels s m)

include h

theorem andThen (h' : BindsOnly inner m s')
    (hinner : ∀ label ∈ inner, label ∈ labels ∨ s.labelCount ≤ label.id) :
    BindsOnly labels s s' := by
  refine ⟨h.count.trans h'.count, fun label hlt hmem => ?_⟩
  have hnot : label ∉ inner := by
    intro hin
    rcases hinner label hin with hlabels | hfresh
    · exact hmem hlabels
    · omega
  rw [h'.kept label (Nat.lt_of_lt_of_le hlt h.count) hnot, h.kept label hlt hmem]

theorem trans (h' : BindsOnly [] m s') : BindsOnly labels s s' :=
  h.andThen h' (List.forall_mem_nil _)

omit h in
theorem context {t' : State} (h : BindsOnly labels t t') (hstart : t.assembler = s.assembler)
    (hend : s'.assembler = t'.assembler) : BindsOnly labels s s' := by
  obtain ⟨hcount, hkept⟩ := h
  rw [labelCount, labelCount, hstart, ← hend] at hcount
  refine ⟨hcount, fun label hlt hmem => ?_⟩
  rw [hend, ← hstart]
  exact hkept label (by rwa [labelCount, hstart]) hmem

theorem onSlots (f : Slots → Slots) : BindsOnly labels s (m.onSlots f) :=
  h.context rfl rfl

theorem withSlots (slots : Slots) : BindsOnly labels s (m.withSlots slots) :=
  h.context rfl rfl

theorem pushFlow (flow : Flow) : BindsOnly labels s (m.pushFlow flow) :=
  h.context rfl rfl

theorem popFlow : BindsOnly labels s m.popFlow := h.context rfl rfl

theorem pushCleanup? (cleanup : Option Tree) : BindsOnly labels s (m.pushCleanup? cleanup) := by
  cases cleanup <;> exact h.context rfl rfl

theorem popCleanup? (cleanup : Option Tree) : BindsOnly labels s (m.popCleanup? cleanup) := by
  cases cleanup <;> exact h.context rfl rfl

omit h in
/-- A call binds no other label than its own. -/
theorem call (s : State) (call : Call) : BindsOnly call.bound?.toList s (s.emits call) := by
  have hgrows : s.labelCount ≤ (s.emits call).labelCount := by
    have hsize := call.size_positions_run s.assembler
    rw [labelCount, labelCount, emits, onAssembler, hsize]
    omega
  refine ⟨hgrows, fun label hlt hmem => ?_⟩
  have hne : call.bound? ≠ some label := fun heq => hmem (by rw [heq]; exact List.mem_cons_self)
  by_cases hbound : ∀ bound ∈ call.bound?, bound.id < s.assembler.positions.size
  · exact (Call.position?_run hbound label).trans (if_neg hne)
  · push Not at hbound
    obtain ⟨bound, hbind, hsize⟩ := hbound
    cases call with
    | bind other =>
      obtain rfl : other = bound := Option.some.inj hbind
      change (Assembler.bind other s.assembler).position? label = _
      rw [Assembler.bind, Array.setIfInBounds_eq_of_size_le hsize]
      rfl
    | _ => cases hbind

theorem bind (hlabel : label ∈ labels ∨ s.labelCount ≤ label.id) :
    BindsOnly labels s (m.emits (.bind label)) :=
  h.andThen (call m (.bind label)) (List.forall_mem_singleton.mpr hlabel)

theorem emits {call : Call} (hcall : call.bound? = none) : BindsOnly labels s (m.emits call) := by
  have hstep := BindsOnly.call m call
  rw [hcall] at hstep
  exact h.trans hstep

theorem jump (label : Label) : BindsOnly labels s (m.emits (.jump .jump label)) :=
  h.emits rfl

theorem setLocal (slot : UInt16) : BindsOnly labels s (m.emits (.setLocal slot)) :=
  h.emits rfl

theorem region (start stop handler : Label) (catches : Option Digest) :
    BindsOnly labels s (m.emits (.region start stop handler catches)) :=
  h.emits rfl

theorem emitsAll {calls : List Call}
    (hcalls : ∀ call ∈ calls, ∀ label ∈ call.bound?, label ∈ labels ∨ s.labelCount ≤ label.id) :
    BindsOnly labels s (m.emitsAll calls) := by
  induction calls generalizing m with
  | nil => exact h
  | cons first rest ih =>
    obtain ⟨hfirst, hrest⟩ := List.forall_mem_cons.mp hcalls
    refine ih (h.andThen (call m first) fun label hmem => ?_) hrest
    exact hfirst label (Option.mem_toList.mp hmem)

theorem emitsAll_of_unbound {calls : List Call}
    (hcalls : ∀ call ∈ calls, call.bound? = none) : BindsOnly labels s (m.emitsAll calls) := by
  refine h.emitsAll fun call hcall label hlabel => ?_
  rw [hcalls call hcall] at hlabel
  cases hlabel

theorem regions (handler : Label) (ranges : List (Label × Label)) :
    BindsOnly labels s (m.emitsAll (ranges.map fun range =>
      .region range.1 range.2 handler none)) :=
  h.emitsAll_of_unbound (List.forall_mem_map.mpr fun _ _ => rfl)

theorem newLabels (count : Nat) : BindsOnly labels s (m.newLabels count) := by
  induction count with
  | zero => exact h
  | succ count ih => exact ih.emits rfl

theorem discard (ty : Ty) : BindsOnly labels s (m.discard ty) := by
  unfold State.discard
  split_ifs
  · exact h
  · exact h.trans (call m (.pop ty.width))

theorem enterScope : BindsOnly labels s m.enterScope :=
  (h.trans (call m .enterFrame)).onSlots _

theorem exitScope : BindsOnly labels s m.exitScope :=
  (h.onSlots _).trans (call _ .exitFrame)

theorem reserveAll (names : List String) : BindsOnly labels s (m.reserveAll names) := by
  induction names generalizing m with
  | nil => exact h
  | cons name rest ih => exact ih (h.onSlots _)

theorem rewrites {env : Env} {tree rewritten : Tree}
    (hrewrites : Rewrites env m tree rewritten s') : BindsOnly labels s s' := by
  cases hrewrites with
  | indexed => exact (h.withSlots _).withSlots _
  | iterator | synchronized | hashed => exact h.withSlots _

end

theorem pending (h : BindsOnly labels s s') (hpending : s.Pending label) (hlabel : label ∉ labels) :
    s'.Pending label where
  known := Nat.lt_of_lt_of_le hpending.known h.count
  unbound := (h.kept label hpending.known hlabel).trans hpending.unbound

theorem position? (h : BindsOnly labels s s') (hlabels : ∀ label ∈ labels, s.Pending label)
    {position : Nat} (hbound : s.assembler.position? label = some position) :
    s'.assembler.position? label = some position := by
  have hknown : label.id < s.labelCount := by
    have hentry := Option.join_eq_some_iff.mp hbound
    exact (Array.getElem?_eq_some_iff.mp hentry).1
  have hnot : label ∉ labels := by
    intro hmem
    cases hbound.symm.trans (hlabels label hmem).unbound
  rw [h.kept label hknown hnot, hbound]

end BindsOnly

end State

namespace Job

mutual

/-- Labels from around the job that it binds. -/
def binds : Job → List Label
  | .otherwise elseLabel _ _ => [elseLabel]
  | .arm _ _ target => [target]
  | .detour (some way) => [way.label]
  | .seq jobs => bindsAll jobs
  | _ => []

def bindsAll : List Job → List Label
  | [] => []
  | job :: rest => job.binds ++ bindsAll rest

end

theorem bindsAll_map {α : Type} {f : α → Job} (h : ∀ a, (f a).binds = []) (items : List α) :
    bindsAll (items.map f) = [] := by
  induction items with
  | nil => rfl
  | cons item rest ih => rw [List.map_cons, bindsAll, h, ih, List.nil_append]

end Job

/-- The call binds no label and records no region. -/
def Call.Unmarked (call : Call) : Prop := call.bound? = none ∧ call.regions = []

theorem Call.Computes.unmarked {named : UInt16 → Prop} {call : Call} (h : call.Computes named) :
    call.Unmarked := by
  cases call with
  | bind | region => exact h.elim
  | _ => exact ⟨rfl, rfl⟩

/-- The calls of an operation bind no label and record no region. -/
theorem Operates.unmarked {env : Env} {s : State} {tree : Tree} {operation : Operation}
    (h : Operates env s tree operation) :
    (∀ call ∈ operation.first, call.Unmarked) ∧ ∀ call ∈ operation.last, call.Unmarked := by
  obtain ⟨hfirst, hlast⟩ := h.computes (fun _ => True) fun _ => trivial
  exact ⟨fun call hcall => (hfirst call hcall).unmarked, fun call hcall => (hlast call hcall).unmarked⟩

theorem unmarked_dispatchCall (encoding : Switch.Encoding) (otherwise : Label)
    (targets : List (Int32 × Label)) : (dispatchCall encoding otherwise targets).Unmarked := by
  unfold dispatchCall
  split <;> exact ⟨rfl, rfl⟩

theorem Misses.binds_detour {s t : State} {body : Tree} {otherwise : Option Tree}
    {elseLabel done miss : Label} {detour : Option Lowering.Detour}
    (h : Misses s body otherwise elseLabel done miss detour t) :
    ∀ label ∈ (Job.detour detour).binds, s.labelCount ≤ label.id := by
  cases h with
  | plain | direct => exact List.forall_mem_nil _
  | detour => exact List.forall_mem_singleton.mpr (State.le_label 0 s)

theorem Job.mem_bindsAll {jobs : List Job} :
    label ∈ bindsAll jobs ↔ ∃ job ∈ jobs, label ∈ job.binds := by
  induction jobs with
  | nil => simp [bindsAll]
  | cons job rest ih => simp [bindsAll, ih]

/-- Arms have the label of the default or a new one. -/
theorem State.label_of_mem_armTargets {otherwise : Label} {arms : List (Int32 × Tree)}
    {targets : List (Int32 × Label)} {s s' : State}
    (h : s.armTargets otherwise arms = (targets, s')) : ∀ target ∈ targets,
      target.2 = otherwise ∨ s.labelCount ≤ target.2.id ∧ target.2.id < s'.labelCount := by
  induction arms generalizing s targets with
  | nil =>
    cases h
    exact List.forall_mem_nil _
  | cons arm rest ih =>
    unfold State.armTargets at h
    split_ifs at h
    · obtain ⟨rfl, rfl⟩ := Prod.mk.inj h
      exact List.forall_mem_cons.mpr ⟨.inl rfl, ih rfl⟩
    · obtain ⟨rfl, rfl⟩ := Prod.mk.inj h
      obtain ⟨count, hcount⟩ := @newLabels_of_armTargets otherwise rest _ (s.emits .newLabel) _ rfl
      have hnew := (pending_newLabels s Nat.one_pos).known
      have hlast := ((BindsOnly.refl [] (s.emits .newLabel)).newLabels count).count
      rw [← hcount] at hlast
      refine List.forall_mem_cons.mpr ⟨.inr ⟨le_label 0 s, hnew.trans_le hlast⟩, fun target hmem => ?_⟩
      exact (ih rfl target hmem).imp_right fun hbounds =>
        ⟨((BindsOnly.refl [] s).newLabels 1).count.trans hbounds.1, hbounds.2⟩

namespace Lowers

open State (BindsOnly le_label)

theorem bindsOnly {env : Env} {job : Job} {s s' : State} (h : Lowers env job s s') :
    BindsOnly job.binds s s' := by
  induction h with
  | value _ ih => exact ih.context rfl rfl
  | statement _ ih => exact ih.context rfl rfl
  | inScope _ ih => exact ((BindsOnly.refl _ _).enterScope.trans ih).exitScope
  | nil => exact .refl _ _
  | @cons job rest _ _ _ _ _ ih ih' =>
    have hjob := (BindsOnly.refl (job.binds ++ Job.bindsAll rest) _).andThen ih
      fun label hmem => .inl (List.mem_append_left _ hmem)
    exact hjob.andThen ih' fun label hmem => .inl (List.mem_append_right _ hmem)
  | @operation _ _ s _ hoperation _ ih =>
    rw [Job.binds, Job.bindsAll_map fun _ => rfl] at ih
    obtain ⟨hfirst, hlast⟩ := hoperation.unmarked
    have hstart := (BindsOnly.refl [] s).emitsAll_of_unbound fun call hcall => (hfirst call hcall).1
    exact ((hstart.trans ih).emitsAll_of_unbound fun call hcall => (hlast call hcall).1).discard _
  | bridged _ hbridged _ ih =>
    obtain ⟨bridges, rfl⟩ := State.bridged_keeps hbridged
    exact ih.context rfl rfl
  | rewritten hrewrites _ ih =>
    exact ((((BindsOnly.refl _ _).onSlots _).rewrites hrewrites).trans ih).onSlots _
  | enumSwitch _ _ ih => exact ih
  | block _ ih =>
    rw [Job.binds, Job.bindsAll_map fun _ => rfl] at ih
    exact ih
  | declared => exact (BindsOnly.refl _ _).withSlots _
  | initialized _ _ _ ih => exact (ih.withSlots _).emits rfl
  | sameJumps _ _ _ ih ih' => exact ih.trans ih'
  | skipJumps _ _ _ ih ih' =>
    exact ((((BindsOnly.refl _ _).emits rfl).trans ih).trans ih').bind (.inr (le_label _ _))
  | notJumps _ ih => exact ih
  | literalJumps => exact (BindsOnly.refl _ _).emits rfl
  | literalSkips => exact .refl _ _
  | testJumps _ _ ih => exact ih.emits rfl
  | logical _ ih =>
    refine ((((BindsOnly.refl _ _).newLabels _).trans ih).emitsAll ?_).discard _
    simp [Call.bound?, le_label]
  | cleanup htaken _ ih => exact ih.context rfl rfl
  | noCleanup => exact .refl _ _
  | cleanups _ ih =>
    rw [Job.binds, cleanupJobs, Job.bindsAll_map fun _ => rfl] at ih
    exact ih
  | leave _ _ ih => exact ih.emits rfl
  | returnVoid _ ih => exact ih.emits rfl
  | returnValue _ _ _ ih => exact ih.emits rfl
  | returnSaved _ _ _ _ _ ih ih' =>
    have hsaved := (((ih.onSlots _).withSlots _).withSlots _).setLocal _ |>.trans ih'
    exact ((hsaved.emits rfl).emits rfl).onSlots _
  | @branch _ _ _ _ _ s _ _ _ _ _ hmiss _ _ _ _ ih₁ ih₂ ih₃ ih₄ =>
    have hlabels : s.labelCount ≤ (s.newLabels 4).labelCount :=
      ((BindsOnly.refl [] s).newLabels 4).count
    obtain ⟨count, rfl⟩ := hmiss.newLabels
    have hstart := ((BindsOnly.refl [] s).newLabels 4).newLabels count
    have hcondition := (hstart.bind (.inr (le_label 0 s))).trans ih₁
    have hbody := (hcondition.bind (.inr (le_label 1 s))).trans ih₂
    have hdetour := hbody.andThen ih₃ fun label hmem =>
      .inr (hlabels.trans (hmiss.binds_detour label hmem))
    have hotherwise := hdetour.andThen ih₄ (List.forall_mem_singleton.mpr (.inr (le_label 2 s)))
    exact hotherwise.bind (.inr (le_label 3 s))
  | noDetour => exact .refl _ _
  | detour _ ih =>
    exact (((BindsOnly.refl _ _).bind (.inl List.mem_cons_self)).trans ih).emits rfl
  | noElse => exact .refl _ _
  | hasElse _ ih =>
    exact (((BindsOnly.refl _ _).emits rfl).bind (.inl List.mem_cons_self)).trans ih
  | @forLoop _ _ _ _ _ s m₁ _ _ _ _ _ _ _ ih₁ ih₂ ih₃ ih₄ =>
    rw [Job.binds, Job.bindsAll_map fun _ => rfl] at ih₁ ih₃
    have hinit := (BindsOnly.refl [] s).enterScope.trans ih₁
    have hfresh (index : Nat) : s.labelCount ≤ (m₁.label index).id :=
      hinit.count.trans (le_label index m₁)
    have hbody := ((((hinit.newLabels 4).jump _).pushFlow _).bind (.inr (hfresh 1))).trans ih₂
    have hupdate := (hbody.bind (.inr (hfresh 2))).trans ih₃
    have htest := (hupdate.popFlow.bind (.inr (hfresh 0))).trans ih₄
    exact (htest.bind (.inr (hfresh 3))).exitScope
  | @whileLoop _ _ _ bodyFirst s _ _ _ _ ih₁ ih₂ =>
    have hstart : BindsOnly [] s ((s.newLabels 4).emitsAll
        (if bodyFirst then [] else [.jump .jump s.loopLabels.condition])) := by
      refine ((BindsOnly.refl [] s).newLabels 4).emitsAll_of_unbound ?_
      cases bodyFirst <;> simp [Call.bound?]
    have hbody := ((hstart.pushFlow _).bind (.inr (le_label 1 s))).trans ih₁
    have htest := (hbody.popFlow.bind (.inr (le_label 0 s))).trans ih₂
    exact htest.bind (.inr (le_label 3 s))
  | tested _ ih => exact ih
  | endless => exact (BindsOnly.refl _ _).emits rfl
  | @intSwitch _ _ _ _ _ _ _ encoding targets s m₁ _ _ _ _ _ _ _ _ htargets _ _ ih₁ ih₂ ih₃ =>
    rw [Job.binds, Job.bindsAll_map fun _ => rfl] at ih₃
    have hstart := ((BindsOnly.refl [] s).newLabels 4).bind (.inr (le_label 0 s))
    have hvalue := (hstart.pushFlow _).trans ih₁
    obtain ⟨count, rfl⟩ := State.newLabels_of_armTargets htargets
    have hdispatch := ((hvalue.newLabels count).emits
      (unmarked_dispatchCall encoding (s.label 2) targets).1).bind (.inr (le_label 1 s))
    have harms := hdispatch.andThen ih₂ fun label hmem => by
      obtain ⟨job, hjob, hlabel⟩ := Job.mem_bindsAll.mp hmem
      obtain ⟨pair, hpair, rfl⟩ := List.mem_map.mp hjob
      obtain rfl := List.mem_singleton.mp hlabel
      have htarget := State.label_of_mem_armTargets htargets _ (List.of_mem_zip hpair).2
      rcases htarget with hshared | hnew
      · rw [hshared]
        exact .inr (le_label 2 s)
      · exact .inr (hvalue.count.trans hnew.1)
    have hdefault := (harms.bind (.inr (le_label 2 s))).trans ih₃
    exact hdefault.popFlow.bind (.inr (le_label 3 s))
  | sharedArm => exact .refl _ _
  | arm _ _ ih => exact ((BindsOnly.refl _ _).bind (.inl List.mem_cons_self)).trans ih
  | @guarded _ _ cleanup _ s _ _ _ _ _ _ _ _ ih₁ ih₂ ih₃ ih₄ =>
    have hstart := ((BindsOnly.refl [] s).newLabels 3).pushCleanup? cleanup
    have hbody := (hstart.bind (.inr (le_label 0 s))).trans ih₁
    have hclauses := (((hbody.bind (.inr (le_label 1 s))).trans ih₂).jump _).trans ih₃
    exact ((hclauses.popCleanup? cleanup).trans ih₄).bind (.inr (le_label 2 s))
  | noClauses => exact .refl _ _
  | @clause _ _ _ _ _ _ _ _ _ _ s _ _ _ _ _ _ _ _ ih₁ ih₂ ih₃ =>
    have hstart := ((BindsOnly.refl [] s).newLabels 2).bind (.inr (le_label 0 s))
    have hbody := (((hstart.region _ _ _ _).enterScope.withSlots _).setLocal _).trans ih₁
    have hdone := (hbody.exitScope.bind (.inr (le_label 1 s))).trans ih₂
    exact (hdone.jump _).trans ih₃
  | noCatchAll => exact .refl _ _
  | @catchAll _ ranges _ _ s _ _ ht _ _ ih =>
    subst ht
    have hstart := ((BindsOnly.refl [] s).newLabels 1).bind (.inr (le_label 0 s))
    have hregions := hstart.regions (s.label 0) ranges
    have hbody := (((hregions.onSlots _).withSlots _).withSlots _).setLocal _ |>.trans ih
    exact ((hbody.emits rfl).emits rfl).onSlots _
  | bodiless => exact .refl _ _
  | localRoutine => exact ⟨Nat.le_refl _, fun _ _ _ => rfl⟩
  | param => exact (BindsOnly.refl _ _).withSlots _
  | body _ _ ih ih' =>
    rw [Job.binds, Job.bindsAll_map fun _ => rfl] at ih
    refine ((((BindsOnly.refl _ _).reserveAll _).trans ih).trans ih').emitsAll_of_unbound ?_
    split_ifs <;> simp [Call.bound?]

end Lowers

end StackLowering
