import StackLowering.Proofs.Aliases
import StackLowering.Proofs.RelatedHandlers
/-!
Steps of lowering side by side. A step mirrors another one if, from corresponding
states, both fail, or both succeed with corresponding values in states that
correspond again. Faults are not compared, and nor are the states after them.
-/

namespace StackLowering

namespace Lower

variable {α β γ δ : Type} {env : Env} {R : State → State → Prop} {V : α → β → Prop}
  {W : γ → δ → Prop}

/-- From states related by `R` both steps fail, or both succeed with values related
by `V` in states related by `R` again. -/
def Mirrors (env : Env) (R : State → State → Prop) (V : α → β → Prop) (first : Lower α)
    (second : Lower β) : Prop :=
  ∀ s t, R s t → Agree
    (fun value value' => V value value' ∧ R (first env s).2 (second env t).2)
    (first env s).1 (second env t).1

namespace Mirrors

theorem pure {value : α} {value' : β} (h : V value value') :
    Mirrors env R V (Pure.pure value) (Pure.pure value') :=
  fun _ _ hst => .ok ⟨h, hst⟩

theorem throw (fault fault' : Fault) :
    Mirrors env R V (MonadExcept.throw fault) (MonadExcept.throw fault') :=
  fun _ _ _ => .error

/-- Go on with a weaker relation between the states. -/
theorem bind_of_imp {Q : State → State → Prop} {first : Lower α} {second : Lower β}
    {next : α → Lower γ} {next' : β → Lower δ} (h : Mirrors env R V first second)
    (hQ : ∀ s t, R s t → Q s t)
    (hnext : ∀ value value', V value value' → Mirrors env Q W (next value) (next' value'))
    {s t : State} (hst : R s t) :
    Agree (fun value value' => W value value' ∧
        Q ((first >>= next) env s).2 ((second >>= next') env t).2)
      ((first >>= next) env s).1 ((second >>= next') env t).1 := by
  have hfirst := h s t hst
  rw [bind_apply, bind_apply]
  generalize first env s = result at hfirst
  generalize second env t = result' at hfirst
  obtain ⟨outcome, m⟩ := result
  obtain ⟨outcome', m'⟩ := result'
  cases hfirst with
  | ok hvalue => exact hnext _ _ hvalue.1 m m' (hQ m m' hvalue.2)
  | error => exact .error

theorem bind {first : Lower α} {second : Lower β} {next : α → Lower γ} {next' : β → Lower δ}
    (h : Mirrors env R V first second)
    (hnext : ∀ value value', V value value' → Mirrors env R W (next value) (next' value')) :
    Mirrors env R W (first >>= next) (second >>= next') :=
  fun _ _ hst => h.bind_of_imp (fun _ _ => id) hnext hst

theorem andThen {first second : Lower α} {next : α → Lower γ} {next' : α → Lower δ}
    (h : Mirrors env R Eq first second)
    (hnext : ∀ value, Mirrors env R W (next value) (next' value)) :
    Mirrors env R W (first >>= next) (second >>= next') := by
  apply h.bind
  rintro value _ rfl
  exact hnext value

theorem seq {first second : Lower α} {next : Lower γ} {next' : Lower δ}
    (h : Mirrors env R Eq first second) (hnext : Mirrors env R W next next') :
    Mirrors env R W (first >>= fun _ => next) (second >>= fun _ => next') :=
  h.andThen fun _ => hnext

theorem yields {first : Lower α} {second : Lower β} (h : Mirrors env R V first second) :
    Mirrors env R (fun value value' => V value value' ∧ Yields env (fun _ => True) first value)
      first second := by
  intro s t hst
  have hboth := h s t hst
  have hyields (value : α) (hvalue : (first env s).1 = .ok value) :
      Yields env (fun _ => True) first value := ⟨s, (first env s).2, trivial, Prod.ext hvalue rfl⟩
  generalize (first env s).1 = outcome at hboth hyields ⊢
  generalize (second env t).1 = outcome' at hboth ⊢
  cases hboth with
  | ok hvalue => exact .ok ⟨⟨hvalue.1, hyields _ rfl⟩, hvalue.2⟩
  | error => exact .error

theorem orFail {outcome : Except Fault α} {outcome' : Except Fault β}
    (h : Agree V outcome outcome') :
    Mirrors env R V (Lower.orFail outcome) (Lower.orFail outcome') := by
  cases h with
  | ok hvalue => exact pure hvalue
  | error => exact throw _ _

theorem modifyGet {f : State → α × State} {f' : State → β × State}
    (h : ∀ s t, R s t → V (f s).1 (f' t).1 ∧ R (f s).2 (f' t).2) :
    Mirrors env R V (MonadStateOf.modifyGet f) (MonadStateOf.modifyGet f') :=
  fun s t hst => .ok (h s t hst)

theorem modify {f f' : State → State} (h : ∀ s t, R s t → R (f s) (f' t)) :
    Mirrors env R Eq (modify f : Lower Unit) (modify f') :=
  fun s t hst => .ok ⟨rfl, h s t hst⟩

theorem get {next : State → Lower γ} {next' : State → Lower δ}
    (h : ∀ s t, R s t → Mirrors env R W (next s) (next' t)) :
    Mirrors env R W (MonadState.get >>= next) (MonadState.get >>= next') :=
  fun s t hst => h s t hst s t hst

theorem nest :
    Mirrors env R (fun nest nest' => nest = env.nest ∧ nest' = env.nest) Lower.nest Lower.nest :=
  fun _ _ hst => .ok ⟨⟨rfl, rfl⟩, hst⟩

theorem options : Mirrors env R Eq Lower.options Lower.options := fun _ _ hst => .ok ⟨rfl, hst⟩

theorem resolving {owner : Ty}
    (howner : ∀ s t, R s t → s.currentType = owner ∧ t.currentType = owner)
    {find find' : Nest → Ty → Except Fault α} (h : find env.nest owner = find' env.nest owner) :
    Mirrors env R Eq (do Lower.orFail (find (← Lower.nest) (← currentType)))
      (do Lower.orFail (find' (← Lower.nest) (← currentType))) := by
  apply nest.bind
  rintro _ _ ⟨rfl, rfl⟩
  have hcurrent : Mirrors env R (fun ty ty' => ty = owner ∧ ty' = owner) currentType currentType :=
    .get fun s t hst => .pure (howner s t hst)
  apply hcurrent.bind
  rintro _ _ ⟨rfl, rfl⟩
  exact .orFail (Agree.of_eq h)

theorem bracket {enter enter' exit exit' : State → State} {first : Lower α} {second : Lower β}
    (henter : ∀ s t, R s t → R (enter s) (enter' t)) (hexit : ∀ s t, R s t → R (exit s) (exit' t))
    (h : Mirrors env R V first second) :
    Mirrors env R V (Lower.bracket enter exit first) (Lower.bracket enter' exit' second) := by
  intro s t hst
  have hinner := h _ _ (henter s t hst)
  unfold Lower.bracket
  generalize first env (enter s) = result at hinner
  generalize second env (enter' t) = result' at hinner
  obtain ⟨outcome, m⟩ := result
  obtain ⟨outcome', m'⟩ := result'
  cases hinner with
  | ok hvalue => exact .ok ⟨hvalue.1, hexit m m' hvalue.2⟩
  | error => exact .error

theorem forM {P : α → β → Prop} {items : List α} {items' : List β} {action : α → Lower Unit}
    {action' : β → Lower Unit} (hitems : List.Forall₂ P items items')
    (h : ∀ item item', P item item' → Mirrors env R Eq (action item) (action' item')) :
    Mirrors env R Eq (items.forM action) (items'.forM action') := by
  induction hitems with
  | nil => exact pure rfl
  | cons hitem _ ih => exact (h _ _ hitem).andThen fun _ => ih

theorem mapM {P : α → β → Prop} {items : List α} {items' : List β} {action : α → Lower γ}
    {action' : β → Lower δ} (hitems : List.Forall₂ P items items')
    (h : ∀ item item', P item item' → Mirrors env R W (action item) (action' item')) :
    Mirrors env R (List.Forall₂ W) (items.mapM action) (items'.mapM action') := by
  induction hitems with
  | nil =>
    rw [List.mapM_nil, List.mapM_nil]
    exact pure .nil
  | cons hitem _ ih =>
    rw [List.mapM_cons, List.mapM_cons]
    apply (h _ _ hitem).bind
    intro value value' hvalue
    apply ih.bind
    intro values values' hvalues
    exact pure (.cons hvalue hvalues)

end Mirrors

end Lower

namespace Setting

variable {S : Setting} {α β : Type} {V : α → β → Prop}

/-- From states that are alike both steps fail, or both succeed in such states. -/
abbrev Mirrors (S : Setting) (V : α → β → Prop) : Lower α → Lower β → Prop :=
  Lower.Mirrors S.env S.Alike V

open Lower

section Steps

theorem mirrors_emit (f : Assembler → Assembler) : S.Mirrors Eq (emit f) (emit f) :=
  .modify fun _ _ hst => hst.onAssembler f

theorem mirrors_op (opcode : Opcode) : S.Mirrors Eq (op opcode) (op opcode) := mirrors_emit _

theorem mirrors_newLabel : S.Mirrors Eq newLabel newLabel := by
  apply Lower.Mirrors.modifyGet
  intro s t hst
  refine ⟨?_, hst.onAssembler fun assembler => assembler.newLabel.2⟩
  rw [hst.assembler]

theorem mirrors_discard {ty ty' : Ty} (h : ty.prim? = ty'.prim?) :
    S.Mirrors Eq (discard ty) (discard ty') :=
  .modify fun _ _ hst => hst.discard h

theorem mirrors_resolving {find find' : Nest → Ty → Except Fault α}
    (h : find S.env.nest S.owner = find' S.env.nest S.owner) :
    S.Mirrors Eq (do Lower.orFail (find (← Lower.nest) (← currentType)))
      (do Lower.orFail (find' (← Lower.nest) (← currentType))) :=
  .resolving (fun _ _ hst => ⟨hst.first.owner, hst.second.owner⟩) h

theorem mirrors_resolve (ty : Ty) : S.Mirrors Eq (resolve ty) (resolve (S.plainTy ty)) :=
  mirrors_resolving (Nest.resolve_unaliased ty).symm

theorem mirrors_resolveAll (types : List Ty) :
    S.Mirrors Eq (resolveAll types) (resolveAll (types.map S.plainTy)) :=
  mirrors_resolving (Nest.resolveAll_unaliased types).symm

theorem mirrors_resolveSignature (signature : Signature) :
    S.Mirrors Eq (resolveSignature signature)
      (resolveSignature (signature.mapTypes S.plainTy)) :=
  mirrors_resolving (Nest.resolveSignature_unaliased signature).symm

theorem mirrors_valueType {tree other : Tree} (h : S.plain tree = S.plain other) :
    S.Mirrors Eq (resolve tree.valueType) (resolve other.valueType) :=
  mirrors_resolving (resolve_valueType h)

end Steps

section Variables

variable {s t : State} {name : String} {ty ty' : Ty}

theorem declare_apply (name : String) (ty : Ty) (env : Env) (s : State) :
    declare name ty env s =
      ((s.slots.declare name ty).1, s.withSlots (s.slots.declare name ty).2) := by
  rw [declare, bind_apply]
  change (Lower.orFail (s.slots.declare name ty).1 : Lower UInt16) env
    (s.withSlots (s.slots.declare name ty).2) = _
  cases (s.slots.declare name ty).1 <;> rfl

/-- Declarations that get the same slot in alike tables. -/
theorem Alike.declare (h : S.Alike s t)
    (hslot : (s.slots.declare name ty).1 = (t.slots.declare name ty').1)
    (hslots : (s.slots.declare name ty).2.Alike S.visible (t.slots.declare name ty').2) :
    Agree (fun slot slot' => slot = slot' ∧
        S.Alike (Lower.declare name ty S.env s).2 (Lower.declare name ty' S.env t).2)
      (Lower.declare name ty S.env s).1 (Lower.declare name ty' S.env t).1 := by
  rw [declare_apply, declare_apply]
  generalize hfirst : s.slots.declare name ty = result at hslot hslots
  generalize hsecond : t.slots.declare name ty' = result' at hslot hslots
  obtain ⟨outcome, slots⟩ := result
  obtain ⟨outcome', slots'⟩ := result'
  subst hslot
  cases outcome with
  | error fault => exact .error
  | ok slot =>
    refine .ok ⟨rfl, h.withSlots hslots ?_ ?_ fun other => Slots.isUsed_declare hfirst⟩
    · exact (Slots.Step.declare hfirst).named h.first.named
    · exact (Slots.Step.declare hsecond).named h.second.named

theorem mirrors_declare (hname : S.visible name = true) (ty : Ty) :
    S.Mirrors Eq (declare name ty) (declare name ty) := by
  intro s t hst
  obtain ⟨hslot, hslots⟩ := @Slots.Alike.declare _ _ _ _ ty hst.slots hname
  exact hst.declare hslot hslots

theorem mirrors_require (hname : S.visible name = true) (ty : Ty) (tree tree' : Tree) :
    S.Mirrors Eq (require name ty tree) (require name ty tree') := by
  apply Lower.Mirrors.get
  intro s t hst
  rw [hst.slots.require hname]
  apply Lower.Mirrors.orFail
  cases t.slots.require name ty with
  | ok slot => exact .ok rfl
  | error fault => exact .error

theorem Alike.uniqueName (h : S.Alike s t) (base : String) :
    (s.slots.uniqueName base).1 = (t.slots.uniqueName base).1 ∧
      S.Alike (s.withSlots (s.slots.uniqueName base).2)
        (t.withSlots (t.slots.uniqueName base).2) := by
  obtain ⟨hname, hslots⟩ := h.slots.uniqueName base
  refine ⟨hname, h.withSlots hslots (Slots.Step.uniqueName.named h.first.named)
    (Slots.Step.uniqueName.named h.second.named) ?_⟩
  intro name hused
  rw [Slots.isUsed_iff_mem, Slots.names, List.mem_append] at hused
  apply Slots.isUsed_iff_mem.mpr
  exact List.mem_append.mpr (hused.imp_right (List.mem_cons_of_mem _))

theorem mirrors_uniqueName (base : String) :
    S.Mirrors Eq (uniqueName base) (uniqueName base) :=
  .modifyGet fun _ _ hst => hst.uniqueName base

theorem visible_of_yields {base : String}
    (hbase : ∀ rest, "$result".toList.isPrefixOf (base.toList ++ rest) = false)
    (h : Yields S.env (fun _ => True) (uniqueName base) name) : S.visible name = true := by
  obtain ⟨s, _, _, hrun⟩ := h
  obtain ⟨number, _, heq, _⟩ := s.slots.uniqueName_spec base
  rw [(runs_uniqueName.mp hrun).1, heq, visible, String.toList_append, hbase, Bool.not_false,
    Bool.or_true]

theorem Sound.visible_result (h : S.Sound s) :
    S.visible (s.slots.uniqueName "$result").1 = false := by
  have hunused := s.slots.isUsed_uniqueName "$result"
  obtain ⟨number, _, heq, _⟩ := s.slots.uniqueName_spec "$result"
  have hreserved : S.reserved.contains (s.slots.uniqueName "$result").1 = false := by
    rw [Bool.eq_false_iff]
    intro hmem
    rw [h.reserved _ (List.contains_iff_mem.mp hmem)] at hunused
    cases hunused
  rw [visible, hreserved, heq, String.toList_append]
  rfl

/-- A returned value is kept in the same slot, whatever its type is called. -/
theorem mirrors_keepResult (h : ty.prim? = ty'.prim?) :
    S.Mirrors Eq (keepResult ty) (keepResult ty') := by
  intro s t hst
  obtain ⟨hname, halike⟩ := hst.uniqueName "$result"
  have hhidden := hst.first.visible_result
  have hnew : s.slots.bindings[(s.slots.uniqueName "$result").1]? = none := by
    cases hbinding : s.slots.bindings[(s.slots.uniqueName "$result").1]? with
    | none => rfl
    | some binding =>
      obtain ⟨entry, hmem, hentry⟩ := hst.first.named.bindings _ _ hbinding
      have hused := hst.first.named.table entry hmem
      rw [hentry, s.slots.isUsed_uniqueName] at hused
      cases hused
  obtain ⟨hslot, hslots⟩ := halike.slots.declare_hidden hhidden hnew (Ty.width_congr h)
  have happly (s : State) : uniqueName "$result" S.env s =
      (.ok (s.slots.uniqueName "$result").1, s.withSlots (s.slots.uniqueName "$result").2) := rfl
  rw [keepResult, keepResult, bind_apply, bind_apply, happly, happly, ← hname]
  exact halike.declare hslot hslots

end Variables

section Scopes

variable {first second : Lower Unit}

theorem Mirrors.inExpression (h : S.Mirrors Eq first second) :
    S.Mirrors Eq (inExpression first) (inExpression second) := by
  apply Lower.Mirrors.bracket _ _ h
  · intro s t hst
    unfold State.enterExpression
    rw [hst.depth]
    exact hst.withDepth _
  · intro s t hst
    unfold State.exitExpression
    rw [hst.depth]
    exact hst.withDepth _

theorem Mirrors.inStatement (h : S.Mirrors Eq first second) :
    S.Mirrors Eq (inStatement first) (inStatement second) := by
  intro s t hst
  have hbracket : S.Mirrors Eq
      (bracket (State.withDepth 0) (State.withDepth s.expressionDepth) first)
      (bracket (State.withDepth 0) (State.withDepth t.expressionDepth) second) := by
    rw [hst.depth]
    apply Lower.Mirrors.bracket _ _ h
    · exact fun _ _ hst => hst.withDepth 0
    · exact fun _ _ hst => hst.withDepth _
  exact hbracket s t hst

theorem Mirrors.withScope (h : S.Mirrors Eq first second) :
    S.Mirrors Eq (withScope first) (withScope second) :=
  .bracket (fun _ _ hst => hst.enterScope) (fun _ _ hst => hst.exitScope) h

theorem Mirrors.withSlotScope (h : S.Mirrors Eq first second) :
    S.Mirrors Eq (withSlotScope first) (withSlotScope second) :=
  .bracket (fun _ _ hst => hst.enterSlotScope) (fun _ _ hst => hst.exitSlotScope) h

end Scopes

theorem Alike.alongside {s t : State} (h : S.Alike s t) : s.Alongside t where
  flows := h.flows
  depths := by
    have hdepths (cleanups : List Cleanup) : cleanups.map Cleanup.flowDepth =
        (cleanups.map S.plainCleanup).map Cleanup.flowDepth := by
      rw [List.map_map]
      rfl
    rw [hdepths s.cleanups, h.cleanups, ← hdepths]
  owner := h.first.owner.trans h.second.owner.symm
  isVoid := Ty.isVoid_congr h.result

/-- Mirroring is a relation between lowerings. -/
def mirroring (S : Setting) : Congruence S.env fun _ => True where
  Rel := S.Mirrors Eq
  Faults := fun _ _ => True
  Around := S.Alike
  faults := fun _ _ => trivial
  alongside := Alike.alongside
  pure := fun _ => .pure rfl
  throw := fun _ => .throw _ _
  bind := fun h hnext => h.yields.bind (by
    rintro value _ ⟨rfl, hyields⟩
    exact hnext value hyields)
  get := fun _ hnext => .get fun s t hst => hnext s t trivial hst
  nest := fun _ _ hst => .ok ⟨rfl, hst⟩
  tableLimit := fun _ _ hst => .ok ⟨rfl, hst⟩
  emit := fun call _ => mirrors_emit call.run
  newLabel := mirrors_newLabel
  uniqueName := mirrors_uniqueName
  inFlow := fun flow _ _ h =>
    (Lower.Mirrors.modify fun _ _ hst => hst.withFlows (flow :: ·)).seq (h.andThen fun _ =>
      (Lower.Mirrors.modify fun _ _ hst => hst.withFlows List.tail).seq (.pure rfl))
  withScope := Mirrors.withScope
  withSlotScope := Mirrors.withSlotScope

end Setting

end StackLowering
