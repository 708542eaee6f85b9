import StackLowering.Proofs.HiddenTypes
import StackLowering.Proofs.Inversion
import StackLowering.Proofs.TypeSubstitution
/-!
Two lowerings side by side, of trees that differ in how they name their types: a
type may be written out or named by its role for the type around the code. Two
states are alike if they agree on everything that lowering can show, and a step
mirrors another one if from states that are alike both fail, or both succeed in
states that are alike again.
-/

namespace StackLowering

namespace Nest

variable {nest : Nest} {owner : Ty}

/-- Write out the roles that an object type plays. -/
def unaliased (nest : Nest) (owner : Ty) : Ty → Ty
  | .symbolic role =>
    match nest.resolveRole owner role with
    | .ok (.object name) => .object name
    | _ => .symbolic role
  | .array element => .array (nest.unaliased owner element)
  | ty => ty

theorem unaliased_symbolic (nest : Nest) (owner : Ty) (role : Role) :
    (∃ name, nest.resolveRole owner role = .ok (.object name) ∧
      nest.unaliased owner (.symbolic role) = .object name) ∨
    nest.unaliased owner (.symbolic role) = .symbolic role := by
  rw [unaliased]
  split
  · rename_i name hrole
    exact .inl ⟨name, hrole, rfl⟩
  · exact .inr rfl

@[simp]
theorem resolve_unaliased (ty : Ty) :
    nest.resolve owner (nest.unaliased owner ty) = nest.resolve owner ty := by
  induction ty with
  | prim | object => rfl
  | array element ih => rw [unaliased, resolve, ih, resolve]
  | symbolic role =>
    rcases nest.unaliased_symbolic owner role with ⟨name, hrole, hplain⟩ | hplain
    · rw [hplain]
      exact hrole.symm
    · rw [hplain]

@[simp]
theorem prim?_unaliased (ty : Ty) : (nest.unaliased owner ty).prim? = ty.prim? := by
  cases ty with
  | symbolic role =>
    rcases nest.unaliased_symbolic owner role with ⟨name, _, hplain⟩ | hplain
    · rw [hplain]
      rfl
    · rw [hplain]
  | _ => rfl

@[simp]
theorem unaliased_unaliased (ty : Ty) :
    nest.unaliased owner (nest.unaliased owner ty) = nest.unaliased owner ty := by
  induction ty with
  | prim | object => rfl
  | array element ih => rw [unaliased, unaliased, ih]
  | symbolic role =>
    rcases nest.unaliased_symbolic owner role with ⟨name, _, hplain⟩ | hplain
    · rw [hplain]
      rfl
    · rw [hplain, hplain]

theorem resolveAll_unaliased (types : List Ty) :
    nest.resolveAll owner (types.map (nest.unaliased owner)) = nest.resolveAll owner types := by
  rw [resolveAll, resolveAll, List.mapM_map]
  exact congrArg (types.mapM ·) (funext fun ty => resolve_unaliased ty)

theorem resolveSignature_unaliased (signature : Signature) :
    nest.resolveSignature owner (signature.mapTypes (nest.unaliased owner)) =
      nest.resolveSignature owner signature := by
  rw [resolveSignature, resolveSignature]
  simp only [Signature.mapTypes, resolve_unaliased, resolveAll_unaliased]

end Nest

namespace Ty

variable {ty ty' : Ty}

theorem width_congr (h : ty.prim? = ty'.prim?) : ty.width = ty'.width := by
  cases ty <;> cases ty' <;> cases h <;> rfl

theorem isVoid_congr (h : ty.prim? = ty'.prim?) : ty.isVoid = ty'.isVoid := by
  cases ty <;> cases ty' <;> cases h <;> rfl

end Ty

/-- A routine body being lowered: where, as code of which type, and with which
names reserved for its own variables. -/
structure Setting where
  env : Env
  owner : Ty
  reserved : List String

namespace Setting

variable {S : Setting} {tree other : Tree}

/-- Names of variables that some tree can look up. Only a returned value is kept
in a variable that no tree mentions. -/
def visible (S : Setting) (name : String) : Bool :=
  S.reserved.contains name || !("$result".toList.isPrefixOf name.toList)

/-- The type with its role written out. -/
def plainTy (S : Setting) : Ty → Ty := S.env.nest.unaliased S.owner

/-- The tree with the roles written out. -/
def plain (S : Setting) : Tree → Tree := Tree.mapTypes S.plainTy

def plainCleanup (S : Setting) (cleanup : Cleanup) : Cleanup :=
  { cleanup with body := S.plain cleanup.body }

@[simp]
theorem plainTy_plainTy (ty : Ty) : S.plainTy (S.plainTy ty) = S.plainTy ty :=
  Nest.unaliased_unaliased ty

@[simp]
theorem prim?_plainTy (ty : Ty) : (S.plainTy ty).prim? = ty.prim? :=
  Nest.prim?_unaliased ty

@[simp]
theorem plain_plain (tree : Tree) : S.plain (S.plain tree) = S.plain tree := by
  have hfixed : S.plainTy ∘ S.plainTy = S.plainTy := funext fun ty => plainTy_plainTy ty
  rw [plain, Tree.mapTypes_mapTypes, hfixed]

theorem valueType_plain (tree : Tree) :
    (S.plain tree).valueType = S.plainTy tree.valueType ∨
      (S.plain tree).valueType = tree.valueType := by
  cases tree with
  | literal value =>
    apply Or.inr
    cases value <;> rfl
  | self => exact .inr rfl
  | _ => exact .inl rfl

theorem resolve_valueType (h : S.plain tree = S.plain other) :
    S.env.nest.resolve S.owner tree.valueType = S.env.nest.resolve S.owner other.valueType := by
  have hplain (tree : Tree) : S.env.nest.resolve S.owner (S.plain tree).valueType =
      S.env.nest.resolve S.owner tree.valueType := by
    rcases valueType_plain (S := S) tree with hty | hty
    · rw [hty]
      exact Nest.resolve_unaliased _
    · rw [hty]
  rw [← hplain, h, hplain]

/-- The tree itself mentions visible variables only. -/
@[simp]
def ShowsOwn (S : Setting) (tree : Tree) : Prop := ∀ name ∈ tree.ownNames, S.visible name = true

/-- The tree mentions visible variables only. -/
abbrev Clear (S : Setting) : Tree → Prop := Tree.Everywhere S.ShowsOwn

theorem clear_iff : S.Clear tree ↔
    (∀ name ∈ tree.ownNames, S.visible name = true) ∧ ∀ part ∈ tree.children, S.Clear part :=
  Tree.everywhere_iff

@[simp]
theorem clear_plain : S.Clear (S.plain tree) ↔ S.Clear tree := by
  induction tree using Tree.induction_children with
  | _ tree ih =>
    rw [clear_iff, clear_iff, plain, Tree.ownNames_mapTypes, Tree.children_mapTypes,
      List.forall_mem_map]
    exact and_congr_right fun _ => forall₂_congr ih

/-- The trees differ in how they name their types, at most. -/
structure Same (S : Setting) (tree other : Tree) : Prop where
  clear : S.Clear tree
  plain : S.plain tree = S.plain other

theorem Clear.refl (h : S.Clear tree) : S.Same tree tree := ⟨h, rfl⟩

theorem Clear.same (h : S.Clear tree) : S.Same tree (S.plain tree) := ⟨h, (plain_plain tree).symm⟩

theorem Same.symm (h : S.Same tree other) : S.Same other tree := by
  refine ⟨?_, h.plain.symm⟩
  rw [← clear_plain, ← h.plain, clear_plain]
  exact h.clear

theorem map_plain {trees trees' : List Tree} (h : List.Forall₂ S.Same trees trees') :
    trees.map S.plain = trees'.map S.plain := by
  induction h with
  | nil => rfl
  | cons hfirst _ ih => rw [List.map_cons, List.map_cons, hfirst.plain, ih]

theorem forall_clear {trees trees' : List Tree} (h : List.Forall₂ S.Same trees trees') :
    ∀ tree ∈ trees, S.Clear tree := by
  induction h with
  | nil => exact List.forall_mem_nil _
  | cons hfirst _ ih => exact List.forall_mem_cons.mpr ⟨hfirst.clear, ih⟩

/-- What is so in every state of the lowering. -/
structure Sound (S : Setting) (s : State) : Prop where
  owner : s.currentType = S.owner
  named : s.slots.Named
  reserved : ∀ name ∈ S.reserved, s.slots.isUsed name = true
  cleanups : ∀ cleanup ∈ s.cleanups, S.Clear cleanup.body

/-- The states agree on everything that lowering can show. -/
structure Alike (S : Setting) (s t : State) : Prop where
  assembler : s.assembler = t.assembler
  bridges : s.bridges = t.bridges
  flows : s.flows = t.flows
  slots : s.slots.Alike S.visible t.slots
  cleanups : s.cleanups.map S.plainCleanup = t.cleanups.map S.plainCleanup
  depth : s.expressionDepth = t.expressionDepth
  routines : s.localRoutines = t.localRoutines
  result : s.result.prim? = t.result.prim?
  first : S.Sound s
  second : S.Sound t

namespace Alike

variable {s t u : State}

section

variable (h : S.Alike s t)

include h

theorem symm : S.Alike t s :=
  ⟨h.assembler.symm, h.bridges.symm, h.flows.symm, h.slots.symm, h.cleanups.symm, h.depth.symm,
    h.routines.symm, h.result.symm, h.second, h.first⟩

theorem trans (h' : S.Alike t u) : S.Alike s u :=
  ⟨h.assembler.trans h'.assembler, h.bridges.trans h'.bridges, h.flows.trans h'.flows,
    h.slots.trans h'.slots, h.cleanups.trans h'.cleanups, h.depth.trans h'.depth,
    h.routines.trans h'.routines, h.result.trans h'.result, h.first, h'.second⟩

theorem onAssembler (f : Assembler → Assembler) : S.Alike (s.onAssembler f) (t.onAssembler f) :=
  { h with
    assembler := congrArg f h.assembler
    first := { h.first with }
    second := { h.second with } }

theorem withDepth (depth : Nat) : S.Alike (s.withDepth depth) (t.withDepth depth) :=
  { h with
    depth := rfl
    first := { h.first with }
    second := { h.second with } }

theorem discard {ty ty' : Ty} (hty : ty.prim? = ty'.prim?) :
    S.Alike (s.discard ty) (t.discard ty') := by
  unfold State.discard State.isValueUsed
  rw [h.depth, Ty.width_congr hty]
  split_ifs
  · exact h
  · exact h.onAssembler _

theorem withFlows (f : Flows → Flows) :
    S.Alike { s with flows := f s.flows } { t with flows := f t.flows } :=
  { h with
    flows := congrArg f h.flows
    first := { h.first with }
    second := { h.second with } }

theorem withBridges (bridges : Bridges) :
    S.Alike { s with bridges := bridges } { t with bridges := bridges } :=
  { h with
    bridges := rfl
    first := { h.first with }
    second := { h.second with } }

theorem withRoutines (shared : Shared) (routines : List Routine) :
    S.Alike { s.withShared shared with localRoutines := s.localRoutines ++ routines }
      { t.withShared shared with localRoutines := t.localRoutines ++ routines } :=
  { h with
    assembler := congrArg (fun assembler => { assembler with pool := shared.pool }) h.assembler
    bridges := rfl
    routines := congrArg (· ++ routines) h.routines
    first := { h.first with }
    second := { h.second with } }

theorem withSlots {slots slots' : Slots}
    (halike : slots.Alike S.visible slots') (hnamed : slots.Named) (hnamed' : slots'.Named)
    (hused : ∀ name, s.slots.isUsed name = true → slots.isUsed name = true) :
    S.Alike (s.withSlots slots) (t.withSlots slots') := by
  have hreserved (name : String) (hname : name ∈ S.reserved) : slots.isUsed name = true :=
    hused name (h.first.reserved name hname)
  refine { h with
    slots := halike
    first := { h.first with named := hnamed, reserved := hreserved }
    second := { h.second with named := hnamed', reserved := fun name hname => ?_ } }
  rw [State.withSlots, ← halike.isUsed]
  exact hreserved name hname

theorem enterSlotScope : S.Alike s.enterSlotScope t.enterSlotScope :=
  h.withSlots h.slots.pushScope (Slots.Step.pushScope.named h.first.named)
    (Slots.Step.pushScope.named h.second.named) fun _ => id

theorem exitSlotScope : S.Alike s.exitSlotScope t.exitSlotScope := by
  refine h.withSlots h.slots.popScope h.first.named.popScope h.second.named.popScope ?_
  intro name hname
  unfold Slots.popScope
  split_ifs <;> exact hname

theorem enterScope : S.Alike s.enterScope t.enterScope :=
  (h.onAssembler Assembler.enterFrame).enterSlotScope

theorem exitScope : S.Alike s.exitScope t.exitScope :=
  h.exitSlotScope.onAssembler Assembler.exitFrame

theorem withCleanups {cleanups cleanups' : List Cleanup}
    (hplain : cleanups.map S.plainCleanup = cleanups'.map S.plainCleanup)
    (hclear : ∀ cleanup ∈ cleanups, S.Clear cleanup.body)
    (hclear' : ∀ cleanup ∈ cleanups', S.Clear cleanup.body) :
    S.Alike { s with cleanups := cleanups } { t with cleanups := cleanups' } :=
  { h with
    cleanups := hplain
    first := { h.first with cleanups := hclear }
    second := { h.second with cleanups := hclear' } }

end

end Alike

end Setting

end StackLowering
