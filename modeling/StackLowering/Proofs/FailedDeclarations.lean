import StackLowering.Proofs.SlotLayout
import StackLowering.Proofs.UniqueNames
/-!
Declarations that fail. A declaration without a slot has already put aside the
binding that it would have hidden. The list of hidden bindings then has an entry
that no scope accounts for, but the entry says what the name means anyway: both
states stand for the same nested scopes, and no operation tells them apart.
-/

namespace StackLowering.Slots

/-- What can be done with the slots of a routine: a request, or a look at them. -/
inductive Operation where
  | request (request : Request)
  | depth
  | frameSize
  | table
  /-- The table and the frame size, when the routine is done. -/
  | finish

inductive Reply where
  | answer (answer : Answer)
  | name (name : String)
  | number (number : Nat)
  | table (entries : Array SlotEntry)
  | layout (entries : Array SlotEntry) (frameSize : Nat)

/-- What is said to a request. A generated name is told. -/
def reply (slots : Slots) : Request → Reply
  | .uniqueName base => .name (slots.uniqueName base).1
  | request => .answer (slots.serve request).1

def perform (slots : Slots) : Operation → Reply × Slots
  | .request request => (slots.reply request, (slots.serve request).2)
  | .depth => (.number slots.depth, slots)
  | .frameSize => (.number slots.frameSize, slots)
  | .table => (.table slots.table, slots)
  | .finish => (.layout slots.table slots.frameSize, slots)

def replies (slots : Slots) : List Operation → List Reply
  | [] => []
  | operation :: rest => (slots.perform operation).1 :: (slots.perform operation).2.replies rest

/-- Both stand for the same scopes, with the same variables and names so far. The
lists of hidden bindings may differ. -/
structure Indistinct (slots slots' : Slots) : Prop where
  scopes : ∃ model, slots.Refines model ∧ slots'.Refines model
  table : slots.table = slots'.table
  usedNames : slots.usedNames = slots'.usedNames
  hiddenNames : slots.hiddenNames = slots'.hiddenNames
  nameCounter : slots.nameCounter = slots'.nameCounter

namespace Indistinct

variable {slots slots' : Slots}

section

variable (h : slots.Indistinct slots')

include h

theorem depth : slots.depth = slots'.depth := by
  obtain ⟨model, hslots, hslots'⟩ := h.scopes
  rw [hslots.represents.depth_eq, hslots'.represents.depth_eq]

theorem frameSize : slots.frameSize = slots'.frameSize := by
  obtain ⟨model, hslots, hslots'⟩ := h.scopes
  rw [hslots.cells, hslots'.cells]

theorem redeclared? (name : String) (ty : Ty) :
    slots.redeclared? name ty = slots'.redeclared? name ty := by
  obtain ⟨model, hslots, hslots'⟩ := h.scopes
  rw [hslots.redeclared?, hslots'.redeclared?]

theorem answer (request : Request) : (slots.serve request).1 = (slots'.serve request).1 := by
  obtain ⟨model, hslots, hslots'⟩ := h.scopes
  rw [(hslots.serve request).1, (hslots'.serve request).1]

theorem serve_scopes (request : Request) :
    ∃ model, (slots.serve request).2.Refines model ∧ (slots'.serve request).2.Refines model := by
  obtain ⟨model, hslots, hslots'⟩ := h.scopes
  exact ⟨_, (hslots.serve request).2, (hslots'.serve request).2⟩

/-- A variable gets a slot in both or in neither. -/
theorem declare (name : String) (ty : Ty) :
    (slots.declare name ty).2.Indistinct (slots'.declare name ty).2 := by
  have hscopes := h.serve_scopes (.declare name ty)
  have hnext : (slots.shadow name).nextSlot = (slots'.shadow name).nextSlot := by
    rw [nextSlot_shadow, nextSlot_shadow, nextSlot, nextSlot, h.frameSize]
  simp only [Slots.serve, Slots.declare, h.redeclared?, hnext] at hscopes ⊢
  cases hredeclared : slots'.redeclared? name ty with
  | some slot => exact h
  | none =>
    rw [hredeclared] at hscopes
    dsimp only at hscopes ⊢
    cases hslot : (slots'.shadow name).nextSlot with
    | error fault =>
      rw [hslot] at hscopes
      refine ⟨hscopes, ?_, ?_, ?_, ?_⟩ <;> rw [shadow_eq slots, shadow_eq slots']
      · exact h.table
      · exact h.usedNames
      · exact h.hiddenNames
      · exact h.nameCounter
    | ok slot =>
      rw [hslot] at hscopes
      refine ⟨hscopes, ?_, ?_, ?_, ?_⟩ <;> rw [shadow_eq slots, shadow_eq slots']
      · exact congrArg (·.push ⟨name, ty, slot⟩) h.table
      · exact congrArg (·.insert name) h.usedNames
      · exact h.hiddenNames
      · exact h.nameCounter

theorem serve (request : Request) :
    (slots.serve request).2.Indistinct (slots'.serve request).2 := by
  have hscopes := h.serve_scopes request
  cases request with
  | pushScope | lookup name | require name ty =>
    exact ⟨hscopes, h.table, h.usedNames, h.hiddenNames, h.nameCounter⟩
  | popScope =>
    refine ⟨hscopes, ?_, ?_, ?_, ?_⟩ <;>
      simp only [Slots.serve] <;> rw [popScope_eq slots, popScope_eq slots']
    · exact h.table
    · exact h.usedNames
    · exact h.hiddenNames
    · exact h.nameCounter
  | declare name ty => exact h.declare name ty
  | reserve name =>
    exact ⟨hscopes, h.table, congrArg (·.insert name) h.usedNames, h.hiddenNames, h.nameCounter⟩
  | uniqueName base =>
    obtain ⟨hname, hcounter⟩ := uniqueName_congr h.usedNames h.hiddenNames h.nameCounter base
    exact ⟨hscopes, h.table, h.usedNames, congrArg₂ List.cons hname h.hiddenNames, hcounter⟩

theorem reply (request : Request) : slots.reply request = slots'.reply request := by
  cases request with
  | uniqueName base =>
    obtain ⟨hname, _⟩ := uniqueName_congr h.usedNames h.hiddenNames h.nameCounter base
    exact congrArg Reply.name hname
  | _ => exact congrArg Reply.answer (h.answer _)

theorem perform (operation : Operation) :
    (slots.perform operation).1 = (slots'.perform operation).1 ∧
      (slots.perform operation).2.Indistinct (slots'.perform operation).2 := by
  cases operation with
  | request request => exact ⟨h.reply request, h.serve request⟩
  | depth => exact ⟨congrArg Reply.number h.depth, h⟩
  | frameSize => exact ⟨congrArg Reply.number h.frameSize, h⟩
  | table => exact ⟨congrArg Reply.table h.table, h⟩
  | finish => exact ⟨congrArg₂ Reply.layout h.table h.frameSize, h⟩

theorem replies (operations : List Operation) :
    slots.replies operations = slots'.replies operations := by
  induction operations generalizing slots slots' with
  | nil => rfl
  | cons operation rest ih =>
    obtain ⟨hreply, hafter⟩ := h.perform operation
    rw [Slots.replies, Slots.replies, hreply, ih hafter]

end

end Indistinct

theorem Refines.indistinct_shadow {slots : Slots} {model : LexicalScopes} (h : slots.Refines model)
    (name : String) : (slots.shadow name).Indistinct slots := by
  have hshadow : (slots.shadow name).Refines model := by
    refine ⟨h.represents.shadow name, ?_⟩
    rw [shadow_eq]
    exact h.cells
  refine ⟨⟨model, hshadow, h⟩, ?_, ?_, ?_, ?_⟩ <;> rw [shadow_eq]

/-- A declaration that fails might as well not have been made: whatever is done
afterwards, every reply is the same as without it. -/
theorem failed_declare_unobservable {requests : List Request} {name : String} {ty : Ty}
    {fault : Fault} {slots : Slots}
    (h : (empty.after requests).declare name ty = (.error fault, slots))
    (operations : List Operation) :
    slots.replies operations = (empty.after requests).replies operations := by
  obtain ⟨_, _, _, rfl⟩ := declare_eq_error h
  exact ((refines_empty.after requests).indistinct_shadow name).replies operations

/-- Nested scopes, each with a variable of two cells that hides the one before. -/
def nested : Nat → List Request
  | 0 => []
  | count + 1 => nested count ++ [.pushScope, .declare "x" Ty.long]

theorem after_nested_succ (count : Nat)
    (hroom : (LexicalScopes.empty.after (nested count)).cells < 65536) :
    LexicalScopes.empty.after (nested (count + 1)) =
      (LexicalScopes.empty.after (nested count)).push.bind "x" Ty.long := by
  have hafter : LexicalScopes.empty.after (nested (count + 1)) =
      ((LexicalScopes.empty.after (nested count)).push.declare "x" Ty.long).2 :=
    List.foldl_append ..
  have hdeclare : (LexicalScopes.empty.after (nested count)).push.declare "x" Ty.long =
      (.ok _, (LexicalScopes.empty.after (nested count)).push.bind "x" Ty.long) := if_pos hroom
  rw [hafter, hdeclare]

theorem cells_after_nested {count : Nat} (hroom : 2 * count ≤ 65536) :
    (LexicalScopes.empty.after (nested count)).cells = 2 * count := by
  induction count with
  | zero => rfl
  | succ count ih =>
    have hcells := ih (by omega)
    rw [after_nested_succ count (by omega)]
    change (LexicalScopes.empty.after (nested count)).cells + 2 = _
    omega

/-- In a full frame, a declaration that would hide a variable fails and changes
the list of hidden bindings. -/
theorem declare_behind_nested (count : Nat) (hfull : 2 * (count + 1) = 65536) :
    ∃ slots, (empty.after (nested (count + 1) ++ [.pushScope])).declare "x" Ty.int =
        (.error (.operandOverflow .localSlot 65536), slots) ∧
      slots.shadowed ≠ (empty.after (nested (count + 1) ++ [.pushScope])).shadowed := by
  have hrefines := refines_empty.after (nested (count + 1) ++ [.pushScope])
  have hcells := cells_after_nested hfull.le
  have hlast := after_nested_succ count (by rw [cells_after_nested] <;> omega)
  have hafter : LexicalScopes.empty.after (nested (count + 1) ++ [.pushScope]) =
      (LexicalScopes.empty.after (nested (count + 1))).push := List.foldl_append ..
  rw [hafter] at hrefines
  generalize empty.after (nested (count + 1) ++ [.pushScope]) = slots at hrefines ⊢
  have hfault : (slots.declare "x" Ty.int).1 = .error (.operandOverflow .localSlot 65536) := by
    have hsize : (LexicalScopes.empty.after (nested (count + 1))).push.cells = 65536 :=
      hcells.trans hfull
    have hnew : (LexicalScopes.empty.after (nested (count + 1))).push.declared? "x" Ty.int =
        none := rfl
    rw [(hrefines.declare "x" Ty.int).1, LexicalScopes.declare, hnew, hsize]
    rfl
  obtain ⟨_, _, _, hslots⟩ := declare_eq_error (Prod.ext hfault rfl)
  obtain ⟨binding, hbinding⟩ : ∃ binding, slots.bindings["x"]? = some binding := by
    rw [hrefines.represents.bindings, hlast]
    exact ⟨_, rfl⟩
  have hdepth : binding.depth ≠ slots.depth := by
    rw [hrefines.represents.bindings] at hbinding
    have hlt := ScopeStack.depth_lt_of_visible? (show ScopeStack.visible?
      (LexicalScopes.empty.after (nested (count + 1))).push.outer "x" = some binding from hbinding)
    rw [← hrefines.represents.depth_eq] at hlt
    exact hlt.ne
  refine ⟨_, Prod.ext hfault rfl, ?_⟩
  rw [hslots, Slots.shadow, hbinding]
  dsimp only
  rw [if_neg hdepth]
  exact List.cons_ne_self _ _

theorem failed_declare_unobservable_fullFrame :
    ∃ slots, (empty.after (nested 32768 ++ [.pushScope])).declare "x" Ty.int =
        (.error (.operandOverflow .localSlot 65536), slots) ∧
      slots.shadowed ≠ (empty.after (nested 32768 ++ [.pushScope])).shadowed ∧
      ∀ operations,
        slots.replies operations =
          (empty.after (nested 32768 ++ [.pushScope])).replies operations := by
  obtain ⟨slots, hdeclare, hdiffers⟩ := declare_behind_nested 32767 rfl
  exact ⟨slots, hdeclare, hdiffers, failed_declare_unobservable hdeclare⟩

end StackLowering.Slots
