import StackLowering.Proofs.ScopeStack
/-!
Slots against lexical scoping. The reference keeps the nested scopes themselves,
each a map from names to types and slots, and the number of cells handed out. A
sequence of requests gets the same answers from the slots of a routine, which
keep one flat map and a list of hidden bindings, as from the reference.
-/

namespace StackLowering

/-- Nested scopes with the variables of each. -/
structure LexicalScopes where
  /-- Variables of the innermost scope. -/
  current : List SlotEntry
  /-- The scopes around it, from the inside out. -/
  outer : ScopeStack
  /-- Cells handed out so far. -/
  cells : Nat

namespace LexicalScopes

def empty : LexicalScopes := ⟨[], [], 0⟩

def push (model : LexicalScopes) : LexicalScopes :=
  { model with current := [], outer := model.current :: model.outer }

/-- Drop the innermost scope. The scope of the routine stays. -/
def pop (model : LexicalScopes) : LexicalScopes :=
  match model.outer with
  | [] => model
  | scope :: rest => { model with current := scope, outer := rest }

/-- The variable that a name means, searched from the innermost scope outwards. -/
def find? (model : LexicalScopes) (name : String) : Option SlotEntry :=
  (model.current :: model.outer).findSome? fun scope => ScopeStack.named? scope name

/-- The variable of the innermost scope with this name and type. -/
def declared? (model : LexicalScopes) (name : String) (ty : Ty) : Option SlotEntry :=
  (ScopeStack.named? model.current name).filter (·.ty = ty)

/-- Bind a name to the next cells in the innermost scope. -/
def bind (model : LexicalScopes) (name : String) (ty : Ty) : LexicalScopes where
  current := ⟨name, ty, UInt16.ofNat model.cells⟩ :: model.current.filter (·.name != name)
  outer := model.outer
  cells := model.cells + max 1 ty.width

/-- Declare a variable: the innermost scope has it already, or it gets a new
slot, which has to fit 16 bits. -/
def declare (model : LexicalScopes) (name : String) (ty : Ty) :
    Except Fault UInt16 × LexicalScopes :=
  match model.declared? name ty with
  | some entry => (.ok entry.slot, model)
  | none =>
    if model.cells < 65536 then (.ok (UInt16.ofNat model.cells), model.bind name ty)
    else (.error (.operandOverflow .localSlot model.cells), model)

/-- The slot of the variable that a name means, if it has this type. -/
def require (model : LexicalScopes) (name : String) (ty : Ty) : Except Fault UInt16 :=
  match model.find? name with
  | some entry =>
    if entry.ty = ty then .ok entry.slot else .error (.undeclaredVariable name ty none)
  | none => .error (.undeclaredVariable name ty none)

end LexicalScopes

namespace Slots

/-- What can be asked of the slots of a routine. -/
inductive Request where
  | pushScope
  | popScope
  | declare (name : String) (ty : Ty)
  | reserve (name : String)
  | uniqueName (base : String)
  | lookup (name : String)
  | require (name : String) (ty : Ty)

/-- What is answered about variables. -/
inductive Answer where
  | done
  | slot (outcome : Except Fault UInt16)
  | binding (found : Option (UInt16 × Ty))

def serve (slots : Slots) : Request → Answer × Slots
  | .pushScope => (.done, slots.pushScope)
  | .popScope => (.done, slots.popScope)
  | .declare name ty => (.slot (slots.declare name ty).1, (slots.declare name ty).2)
  | .reserve name => (.done, slots.reserve name)
  | .uniqueName base => (.done, (slots.uniqueName base).2)
  | .lookup name => (.binding (slots.lookup? name), slots)
  | .require name ty => (.slot (slots.require name ty), slots)

def answers (slots : Slots) : List Request → List Answer
  | [] => []
  | request :: rest => (slots.serve request).1 :: (slots.serve request).2.answers rest

end Slots

namespace LexicalScopes

def serve (model : LexicalScopes) : Slots.Request → Slots.Answer × LexicalScopes
  | .pushScope => (.done, model.push)
  | .popScope => (.done, model.pop)
  | .declare name ty => (.slot (model.declare name ty).1, (model.declare name ty).2)
  | .reserve _ | .uniqueName _ => (.done, model)
  | .lookup name => (.binding ((model.find? name).map fun entry => (entry.slot, entry.ty)), model)
  | .require name ty => (.slot (model.require name ty), model)

def answers (model : LexicalScopes) : List Slots.Request → List Slots.Answer
  | [] => []
  | request :: rest => (model.serve request).1 :: (model.serve request).2.answers rest

/-- The scopes after a sequence of requests. -/
def after (model : LexicalScopes) (requests : List Slots.Request) : LexicalScopes :=
  requests.foldl (fun model request => (model.serve request).2) model

end LexicalScopes

theorem ScopeStack.map_visible? (scopes : ScopeStack) (name : String) :
    (scopes.visible? name).map (fun binding => (binding.slot, binding.ty)) =
      (scopes.findSome? fun scope => named? scope name).map
        fun entry => (entry.slot, entry.ty) := by
  induction scopes with
  | nil => rfl
  | cons scope outer ih =>
    rw [visible?, List.findSome?_cons]
    cases named? scope name with
    | none => exact ih
    | some entry => rfl

namespace Slots

/-- The slots stand for the nested scopes of the reference. -/
structure Refines (slots : Slots) (model : LexicalScopes) : Prop where
  represents : slots.Represents (model.current :: model.outer)
  cells : slots.frameSize = model.cells

variable {slots : Slots} {model : LexicalScopes}

theorem refines_empty : empty.Refines .empty := ⟨represents_empty, rfl⟩

namespace Refines

theorem lookup? (h : slots.Refines model) (name : String) :
    slots.lookup? name = (model.find? name).map fun entry => (entry.slot, entry.ty) := by
  rw [Slots.lookup?, h.represents.bindings]
  exact ScopeStack.map_visible? _ _

theorem require (h : slots.Refines model) (name : String) (ty : Ty) :
    slots.require name ty = model.require name ty := by
  have hlookup := h.lookup? name
  rw [Slots.lookup?] at hlookup
  rw [Slots.require, LexicalScopes.require]
  cases hfind : model.find? name with
  | none =>
    rw [hfind, Option.map_none, Option.map_eq_none_iff] at hlookup
    rw [hlookup]
  | some entry =>
    rw [hfind, Option.map_some, Option.map_eq_some_iff] at hlookup
    obtain ⟨binding, hbinding, hentry⟩ := hlookup
    obtain ⟨hslot, hty⟩ := Prod.mk.inj hentry
    rw [hbinding]
    dsimp only
    rw [hslot, hty]

/-- The current scope has a variable of this name and type in both or in neither. -/
theorem redeclared? (h : slots.Refines model) (name : String) (ty : Ty) :
    slots.redeclared? name ty = (model.declared? name ty).map SlotEntry.slot := by
  have hdepth := h.represents.depth_eq
  have hvisible := h.represents.bindings name
  rw [Slots.redeclared?, LexicalScopes.declared?]
  cases hnamed : ScopeStack.named? model.current name with
  | some entry =>
    rw [ScopeStack.visible?_of_named?_eq_some hnamed] at hvisible
    rw [hvisible]
    by_cases hty : entry.ty = ty
    · simp [hty, hdepth]
    · simp [hty]
  | none =>
    rw [ScopeStack.visible?_of_named?_eq_none hnamed] at hvisible
    rw [hvisible]
    cases houter : model.outer.visible? name with
    | none => rfl
    | some binding =>
      have hlt := ScopeStack.depth_lt_of_visible? houter
      have hne : binding.depth ≠ slots.depth := by omega
      simp [hne]

theorem nextSlot (h : slots.Refines model) (name : String) :
    (slots.shadow name).nextSlot =
      if model.cells < 65536 then .ok (UInt16.ofNat model.cells)
      else .error (.operandOverflow .localSlot model.cells) := by
  rw [shadow_eq, Slots.nextSlot]
  dsimp only
  rw [h.cells]

/-- A declaration is answered as by the reference and leads to scopes that
correspond again. -/
theorem declare (h : slots.Refines model) (name : String) (ty : Ty) :
    (slots.declare name ty).1 = (model.declare name ty).1 ∧
      (slots.declare name ty).2.Refines (model.declare name ty).2 := by
  have hredeclared := h.redeclared? name ty
  have hnext := h.nextSlot name
  cases hdeclared : model.declared? name ty with
  | some entry =>
    rw [hdeclared, Option.map_some] at hredeclared
    have hslots : slots.declare name ty = (.ok entry.slot, slots) := by
      simp only [Slots.declare, hredeclared]
    have hmodel : model.declare name ty = (.ok entry.slot, model) := by
      simp only [LexicalScopes.declare, hdeclared]
    rw [hslots, hmodel]
    exact ⟨rfl, h⟩
  | none =>
    rw [hdeclared, Option.map_none] at hredeclared
    by_cases hcells : model.cells < 65536
    · rw [if_pos hcells] at hnext
      have hslots : slots.declare name ty = (.ok (UInt16.ofNat model.cells),
          (slots.shadow name).allocate name ty (UInt16.ofNat model.cells)) := by
        simp only [Slots.declare, hredeclared, hnext]
      have hmodel : model.declare name ty =
          (.ok (UInt16.ofNat model.cells), model.bind name ty) := by
        simp only [LexicalScopes.declare, hdeclared, if_pos hcells]
      rw [hslots, hmodel]
      refine ⟨rfl, h.represents.declare hslots, ?_⟩
      have hsize : (slots.shadow name).frameSize = slots.frameSize := by rw [shadow_eq]
      change (slots.shadow name).frameSize + max 1 ty.width = model.cells + max 1 ty.width
      rw [hsize, h.cells]
    · rw [if_neg hcells] at hnext
      have hslots : slots.declare name ty =
          (.error (.operandOverflow .localSlot model.cells), slots.shadow name) := by
        simp only [Slots.declare, hredeclared, hnext]
      have hmodel : model.declare name ty =
          (.error (.operandOverflow .localSlot model.cells), model) := by
        simp only [LexicalScopes.declare, hdeclared, if_neg hcells]
      rw [hslots, hmodel]
      refine ⟨rfl, h.represents.shadow name, ?_⟩
      rw [shadow_eq]
      exact h.cells

theorem popScope (h : slots.Refines model) : slots.popScope.Refines model.pop := by
  have hdepth := h.represents.depth_eq
  have hsize : slots.popScope.frameSize = slots.frameSize := by
    unfold Slots.popScope
    split_ifs <;> rfl
  unfold LexicalScopes.pop
  cases houter : model.outer with
  | nil =>
    have hroutine : slots.depth = 0 := by
      rw [hdepth, houter]
      rfl
    rw [Slots.popScope, if_pos hroutine]
    exact h
  | cons scope rest =>
    have hrepresents := h.represents
    rw [houter] at hrepresents
    exact ⟨hrepresents.popScope (List.cons_ne_nil _ _), hsize.trans h.cells⟩

/-- One request is answered alike, and the scopes correspond afterwards. -/
theorem serve (h : slots.Refines model) (request : Request) :
    (slots.serve request).1 = (model.serve request).1 ∧
      (slots.serve request).2.Refines (model.serve request).2 := by
  cases request with
  | pushScope => exact ⟨rfl, h.represents.pushScope, h.cells⟩
  | popScope => exact ⟨rfl, h.popScope⟩
  | declare name ty =>
    obtain ⟨hanswer, hrefines⟩ := h.declare name ty
    exact ⟨congrArg Answer.slot hanswer, hrefines⟩
  | reserve name => exact ⟨rfl, h.represents.reserve name, h.cells⟩
  | uniqueName base =>
    have hrepresents := h.represents
    exact ⟨rfl, ⟨hrepresents.depth, hrepresents.bindings, hrepresents.shadowed,
      hrepresents.bounds, hrepresents.distinct⟩, h.cells⟩
  | lookup name => exact ⟨congrArg Answer.binding (h.lookup? name), h⟩
  | require name ty => exact ⟨congrArg Answer.slot (h.require name ty), h⟩

theorem answers (h : slots.Refines model) (requests : List Request) :
    slots.answers requests = model.answers requests := by
  induction requests generalizing slots model with
  | nil => rfl
  | cons request rest ih =>
    obtain ⟨hanswer, hrefines⟩ := h.serve request
    rw [Slots.answers, LexicalScopes.answers, hanswer, ih hrefines]

end Refines

end Slots

namespace LexicalScopes

/-- Every slot in use is one of the cells handed out. -/
def Bounded (model : LexicalScopes) : Prop :=
  ∀ entry ∈ model.current ++ model.outer.flatten, entry.slot.toNat < model.cells

variable {model : LexicalScopes}

theorem find?_mem {name : String} {entry : SlotEntry} (h : model.find? name = some entry) :
    entry ∈ model.current ++ model.outer.flatten := by
  obtain ⟨scope, hscope, hnamed⟩ := List.exists_of_findSome?_eq_some h
  have hmem := (ScopeStack.named?_eq_some hnamed).1
  exact List.mem_flatten.mpr ⟨scope, hscope, hmem⟩

theorem declared?_mem {name : String} {ty : Ty} {entry : SlotEntry}
    (h : model.declared? name ty = some entry) : entry ∈ model.current := by
  obtain ⟨hnamed, _⟩ := Option.filter_eq_some_iff.mp h
  exact (ScopeStack.named?_eq_some hnamed).1

theorem Bounded.bind (h : model.Bounded) (hcells : model.cells < 65536) (name : String) (ty : Ty) :
    (model.bind name ty).Bounded := by
  intro entry hmem
  have hsize : (model.bind name ty).cells = model.cells + max 1 ty.width := rfl
  rw [LexicalScopes.bind, List.cons_append, List.mem_cons, List.mem_append] at hmem
  rcases hmem with rfl | hmem | hmem
  · have hslot := UInt16.toNat_ofNat_of_lt' hcells
    dsimp only
    omega
  · have hlt := h entry (List.mem_append_left _ (List.mem_of_mem_filter hmem))
    omega
  · have hlt := h entry (List.mem_append_right _ hmem)
    omega

/-- One request keeps the slots in use among the cells, and so is a slot that it
is answered with. -/
theorem Bounded.serve (h : model.Bounded) (request : Slots.Request) :
    (model.serve request).2.Bounded ∧ model.cells ≤ (model.serve request).2.cells ∧
      ∀ slot, (model.serve request).1 = .slot (.ok slot) →
        slot.toNat < (model.serve request).2.cells := by
  cases request with
  | pushScope => exact ⟨h, le_refl _, fun _ hslot => by cases hslot⟩
  | popScope =>
    simp only [LexicalScopes.serve, pop]
    cases houter : model.outer with
    | nil => exact ⟨h, le_refl _, fun _ hslot => by cases hslot⟩
    | cons scope rest =>
      refine ⟨fun entry hmem => h entry (List.mem_append_right _ ?_), le_refl _, fun _ hslot => by cases hslot⟩
      rw [houter]
      exact hmem
  | declare name ty =>
    simp only [LexicalScopes.serve, LexicalScopes.declare]
    cases hdeclared : model.declared? name ty with
    | some entry =>
      refine ⟨h, le_refl _, fun slot hslot => ?_⟩
      cases hslot
      exact h entry (List.mem_append_left _ (declared?_mem hdeclared))
    | none =>
      by_cases hcells : model.cells < 65536
      · simp only [if_pos hcells]
        refine ⟨h.bind hcells name ty, Nat.le_add_right _ _, fun slot hslot => ?_⟩
        cases hslot
        have hnat := UInt16.toNat_ofNat_of_lt' hcells
        have hsize : (model.bind name ty).cells = model.cells + max 1 ty.width := rfl
        omega
      · simp only [if_neg hcells]
        exact ⟨h, le_refl _, fun _ hslot => by cases hslot⟩
  | reserve name | uniqueName base => exact ⟨h, le_refl _, fun _ hslot => by cases hslot⟩
  | lookup name => exact ⟨h, le_refl _, fun _ hslot => by cases hslot⟩
  | require name ty =>
    refine ⟨h, le_refl _, fun slot hslot => ?_⟩
    simp only [LexicalScopes.serve, LexicalScopes.require, Slots.Answer.slot.injEq] at hslot
    split at hslot
    · rename_i entry hentry
      split_ifs at hslot
      cases hslot
      exact h entry (find?_mem hentry)
    · cases hslot

/-- Slots that were answered in a sequence of requests lie among the cells. -/
theorem Bounded.after (h : model.Bounded) (requests : List Slots.Request) :
    model.cells ≤ (model.after requests).cells ∧
      ∀ slot, Slots.Answer.slot (.ok slot) ∈ model.answers requests →
        slot.toNat < (model.after requests).cells := by
  induction requests generalizing model with
  | nil => exact ⟨le_refl _, nofun⟩
  | cons request rest ih =>
    obtain ⟨hbounded, hgrows, hslot⟩ := h.serve request
    obtain ⟨hrest, hanswers⟩ := ih hbounded
    refine ⟨hgrows.trans hrest, fun slot hmem => ?_⟩
    rw [LexicalScopes.answers, List.mem_cons] at hmem
    rcases hmem with hfirst | hlater
    · exact (hslot slot hfirst.symm).trans_le hrest
    · exact hanswers slot hlater

end LexicalScopes

namespace Slots

/-- Slots answer every sequence of requests as nested lexical scopes do. A
declaration that the innermost scope does not have yet gets a slot that no
answer before it named. -/
theorem answers_eq_lexical (requests : List Request) :
    empty.answers requests = LexicalScopes.empty.answers requests ∧
      ∀ name ty slot,
        ((LexicalScopes.empty.after requests).declare name ty).1 = .ok slot →
          (∃ entry, (LexicalScopes.empty.after requests).declared? name ty = some entry ∧
            entry.slot = slot) ∨
          Answer.slot (.ok slot) ∉ empty.answers requests := by
  have hanswers := refines_empty.answers requests
  refine ⟨hanswers, fun name ty slot hslot => ?_⟩
  rw [hanswers]
  have hbounded : LexicalScopes.empty.Bounded := fun entry hmem => by cases hmem
  obtain ⟨_, hbefore⟩ := hbounded.after requests
  rw [LexicalScopes.declare] at hslot
  cases hdeclared : (LexicalScopes.empty.after requests).declared? name ty with
  | some entry =>
    rw [hdeclared] at hslot
    exact .inl ⟨entry, rfl, Except.ok.inj hslot⟩
  | none =>
    rw [hdeclared] at hslot
    dsimp only at hslot
    split_ifs at hslot with hcells
    refine .inr fun hmem => ?_
    have hlt := hbefore slot hmem
    have hnat := UInt16.toNat_ofNat_of_lt' hcells
    rw [Except.ok.inj hslot] at hnat
    omega

/-- A variable of an inner scope hides one of the same name until the scope is
left, and has a slot of its own. -/
theorem answers_eq_lexical_shadowing :
    empty.answers [.declare "x" Ty.int, .pushScope, .declare "x" Ty.int, .popScope,
        .require "x" Ty.int] =
      [.slot (.ok 0), .done, .slot (.ok 1), .done, .slot (.ok 0)] ∧
    Answer.slot (.ok 1) ∉ empty.answers [.declare "x" Ty.int, .pushScope] := by
  refine ⟨(answers_eq_lexical _).1.trans (by rfl), ?_⟩
  refine ((answers_eq_lexical [.declare "x" Ty.int, .pushScope]).2 "x" Ty.int 1
    (by rfl)).resolve_left ?_
  rintro ⟨entry, hentry, _⟩
  cases hentry

end Slots

end StackLowering
