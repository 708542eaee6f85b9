import StackLowering.Proofs.RelatedHandlers
import StackLowering.Proofs.LexicalScopes
/-!
Lowering restores what is around the code, also when it fails: the nesting of
values, the scopes of variables with everything bound in the enclosing ones, the
open brackets of code and the stored data. Loops, switches and cleanups around
the code are restored when it succeeds.
-/

namespace StackLowering

theorem Call.openFrames_run {call : Call} (h : call.Inner) (asm : Assembler) :
    (call.run asm).openFrames = asm.openFrames := by
  cases hinstr : call.instruction? asm.pool with
  | some emission => exact congrArg (fun layout => layout.2.2.1) (layout_run hinstr)
  | none =>
    cases silent_of_instruction? hinstr with
    | enterFrame | exitFrame => exact h.elim
    | _ => rfl

theorem Slots.depth_declare (slots : Slots) (name : String) (ty : Ty) :
    (slots.declare name ty).2.depth = slots.depth := by
  have hshadow : (slots.shadow name).depth = slots.depth := by rw [shadow_eq]
  unfold Slots.declare
  split
  · rfl
  · dsimp only
    split <;> exact hshadow

theorem Slots.depth_popScope {slots : Slots} {depth : Nat} (h : slots.depth = depth + 1) :
    slots.popScope.depth = depth := by
  have hne : slots.depth ≠ 0 := by omega
  rw [Slots.popScope, if_neg hne]
  dsimp only
  omega

/-- The slots stand for scopes of which all but the innermost are given. -/
def Slots.Encloses (slots : Slots) (outer : ScopeStack) : Prop :=
  ∃ current cells, slots.Refines ⟨current, outer, cells⟩

namespace State

/-- What is around the code is the same in both states. -/
structure Restores (s s' : State) : Prop where
  depth : s'.expressionDepth = s.expressionDepth
  data : s'.data = s.data
  frames : s'.assembler.openFrames = s.assembler.openFrames
  scopes : s'.slots.depth = s.slots.depth
  outer : ∀ outer, s.slots.Encloses outer → s'.slots.Encloses outer

namespace Restores

variable {s m s' : State}

theorem of_slots_eq (hdepth : s'.expressionDepth = s.expressionDepth) (hdata : s'.data = s.data)
    (hframes : s'.assembler.openFrames = s.assembler.openFrames) (hslots : s'.slots = s.slots) :
    s.Restores s' where
  depth := hdepth
  data := hdata
  frames := hframes
  scopes := by rw [hslots]
  outer := fun outer houter => by rwa [hslots]

theorem refl (s : State) : s.Restores s := of_slots_eq rfl rfl rfl rfl

theorem trans (h : s.Restores m) (h' : m.Restores s') : s.Restores s' where
  depth := h'.depth.trans h.depth
  data := h'.data.trans h.data
  frames := h'.frames.trans h.frames
  scopes := h'.scopes.trans h.scopes
  outer := fun outer houter => h'.outer outer (h.outer outer houter)

theorem emits (call : Call) (h : call.Inner) (s : State) : s.Restores (s.emits call) :=
  of_slots_eq rfl rfl (Call.openFrames_run h s.assembler) rfl

theorem declare (name : String) (ty : Ty) (s : State) :
    s.Restores (s.withSlots (s.slots.declare name ty).2) where
  depth := rfl
  data := rfl
  frames := rfl
  scopes := s.slots.depth_declare name ty
  outer := by
    rintro outer ⟨current, cells, hrefines⟩
    obtain ⟨_, hdeclared⟩ := hrefines.declare name ty
    have houter : (LexicalScopes.declare ⟨current, outer, cells⟩ name ty).2.outer = outer := by
      unfold LexicalScopes.declare
      split
      · rfl
      · split_ifs <;> rfl
    rw [← houter]
    exact ⟨_, _, hdeclared⟩

theorem reserve (name : String) (s : State) : s.Restores (s.onSlots (·.reserve name)) where
  depth := rfl
  data := rfl
  frames := rfl
  scopes := rfl
  outer := fun _ ⟨current, cells, hrefines⟩ =>
    ⟨current, cells, (hrefines.serve (.reserve name)).2⟩

theorem uniqueName (base : String) (s : State) :
    s.Restores (s.withSlots (s.slots.uniqueName base).2) where
  depth := rfl
  data := rfl
  frames := rfl
  scopes := rfl
  outer := fun _ ⟨current, cells, hrefines⟩ =>
    ⟨current, cells, (hrefines.serve (.uniqueName base)).2⟩

theorem bridged (env : Env) (access : Tree) (s : State) : s.Restores (s.bridged env access).2 := by
  rcases hbridged : s.bridged env access with ⟨use, m⟩
  obtain ⟨bridges, rfl⟩ := State.bridged_keeps hbridged
  exact of_slots_eq rfl rfl rfl rfl

theorem exitSlotScope (h : s.enterSlotScope.Restores m) : s.Restores m.exitSlotScope where
  depth := h.depth
  data := h.data
  frames := h.frames
  scopes := Slots.depth_popScope h.scopes
  outer := by
    rintro outer ⟨current, cells, hrefines⟩
    have hpushed : s.enterSlotScope.slots.Encloses (current :: outer) :=
      ⟨[], cells, (hrefines.serve .pushScope).2⟩
    obtain ⟨_, used, hinner⟩ := h.outer _ hpushed
    exact ⟨current, used, hinner.popScope⟩

theorem exitScope (h : s.enterScope.Restores m) : s.Restores m.exitScope := by
  have hslots : (s.onAssembler Assembler.enterFrame).Restores m.exitSlotScope := exitSlotScope h
  refine ⟨h.depth, h.data, ?_, hslots.scopes, hslots.outer⟩
  have hopen : m.assembler.openFrames = s.assembler.offset :: s.assembler.openFrames := h.frames
  simp only [State.exitScope, State.onAssembler, State.onSlots, Assembler.exitFrame, hopen]

end Restores

end State

/-- What is around the code is restored by every step. -/
def State.restored (env : Env) : State.Kept env where
  Rel := State.Restores
  refl := .refl
  trans := .trans
  emits := State.Restores.emits
  declare := State.Restores.declare
  reserve := State.Restores.reserve
  uniqueName := State.Restores.uniqueName
  bridged := State.Restores.bridged env
  around := fun _ _ _ => .of_slots_eq rfl rfl rfl rfl
  scope := .exitScope
  slotScope := .exitSlotScope
  value := fun h => by
    refine ⟨?_, h.data, h.frames, h.scopes, h.outer⟩
    change _ - 1 = _
    rw [h.depth]
    rfl
  statement := fun h => ⟨rfl, h.data, h.frames, h.scopes, h.outer⟩

namespace Lower

variable {env : Env}

theorem restores_localRoutine (recur : Recur) (method : Method) :
    Keeps (State.restored env) (Lowering.localRoutine recur method) := by
  intro s
  cases hdecl : RoutineDecl.ofMethod? s.currentType method with
  | none =>
    rw [Lowering.localRoutine_apply_bodiless hdecl]
    exact .refl s
  | some decl =>
    rw [Lowering.localRoutine_apply hdecl]
    split
    all_goals exact .of_slots_eq rfl rfl rfl rfl

theorem restores_run (depth : Nat) (tree : Tree) :
    Keeps (State.restored env) (Handlers.standard.run depth tree) :=
  keeps_run (fun recur _ => restores_localRoutine recur) depth tree

end Lower

open Lower

/-- Lowering restores the context, for every tree and from every state. Also
when it fails, the nesting of values, the number of scopes and of open brackets,
the stored data and the variables of all enclosing scopes are what they were;
when it succeeds, so are the loops, switches and cleanups around the code. -/
theorem process_restores (env : Env) (tree : Tree) (s : State) :
    let (outcome, s') := Handlers.standard.process tree env s
    s'.expressionDepth = s.expressionDepth ∧ s'.slots.depth = s.slots.depth ∧
      s'.assembler.frameDepth = s.assembler.frameDepth ∧ s'.data = s.data ∧
      (∀ model, s.slots.Refines model →
        ∃ model', s'.slots.Refines model' ∧ model'.outer = model.outer) ∧
      (outcome = .ok () → s'.flows = s.flows ∧ s'.cleanups = s.cleanups) := by
  have hrestores : s.Restores (Handlers.standard.process tree env s).2 :=
    keeps_process (K := State.restored env) restores_run tree s
  rcases hrun : Handlers.standard.process tree env s with ⟨outcome, s'⟩
  rw [hrun] at hrestores
  refine ⟨hrestores.depth, hrestores.scopes, congrArg List.length hrestores.frames, hrestores.data,
    fun model hmodel => ?_, fun hok => ?_⟩
  · obtain ⟨current, cells, hrefines⟩ := hrestores.outer model.outer ⟨_, _, hmodel⟩
    exact ⟨_, hrefines, rfl⟩
  · subst hok
    have hkeeps := (Derives.process env hrun).keeps
    exact ⟨hkeeps.flows, hkeeps.cleanups⟩

end StackLowering
