import StackLowering.Proofs.Evaluation
import StackLowering.Proofs.SlotTable
/-!
Slots as a stack of lexical scopes. The bindings and the hidden bindings of a
routine describe a stack of scopes, each with its variables and their slots, and
every operation on slots does what it does on the stack. A frame agrees with the
variables of an evaluation if each of them has its value in its slot.
-/

namespace StackLowering

/-- Nested scopes of variables with their slots, innermost first. -/
abbrev ScopeStack := List (List SlotEntry)

variable {entry : SlotEntry} {slot : UInt16} {binding : Binding}

namespace ScopeStack

/-- The variable of one scope that has this name. -/
def named? (scope : List SlotEntry) (name : String) : Option SlotEntry :=
  scope.find? (·.name == name)

/-- The innermost variable of this name, with the depth of its scope. -/
def visible? : ScopeStack → String → Option Binding
  | [], _ => none
  | scope :: outer, name =>
    match named? scope name with
    | some entry => some ⟨entry.ty, entry.slot, outer.length⟩
    | none => visible? outer name

attribute [local simp] visible?

/-- A new variable in the innermost scope, in place of one of the same name. -/
def declare (entry : SlotEntry) : ScopeStack → ScopeStack
  | [] => [[entry]]
  | scope :: outer => (entry :: scope.filter (·.name != entry.name)) :: outer

/-- The bindings that each scope hides, from the innermost scope on. -/
def Hides : ScopeStack → List Shadow → Prop
  | [], shadowed => shadowed = []
  | scope :: outer, shadowed =>
    ∃ own rest, shadowed = own ++ rest ∧
      (∀ shadow ∈ own,
        shadow.depth = outer.length ∧ visible? outer shadow.name = some shadow.binding) ∧
      (∀ entry ∈ scope, ∀ binding, visible? outer entry.name = some binding →
        ∃ shadow ∈ own, shadow.name = entry.name) ∧
      Hides outer rest

variable {scopes outer : ScopeStack} {scope : List SlotEntry} {name : String}

theorem named?_eq_some (h : named? scope name = some entry) :
    entry ∈ scope ∧ entry.name = name := by
  unfold named? at h
  have hname := List.find?_some h
  exact ⟨List.mem_of_find?_eq_some h, eq_of_beq hname⟩

theorem depth_lt_of_visible? (h : visible? scopes name = some binding) :
    binding.depth < scopes.length := by
  induction scopes with
  | nil => cases h
  | cons scope outer ih =>
    rw [visible?] at h
    split at h
    · cases h
      exact Nat.lt_succ_self _
    · exact Nat.lt_succ_of_lt (ih h)

theorem exists_entry_of_visible? (h : visible? scopes name = some binding) :
    ∃ entry ∈ scopes.flatten, entry.slot = binding.slot ∧ entry.ty = binding.ty ∧
      entry.name = name := by
  induction scopes with
  | nil => cases h
  | cons scope outer ih =>
    rw [List.flatten_cons]
    rw [visible?] at h
    split at h
    · rename_i entry hentry
      cases h
      obtain ⟨hmem, hname⟩ := named?_eq_some hentry
      exact ⟨entry, List.mem_append_left _ hmem, rfl, rfl, hname⟩
    · obtain ⟨entry, hmem, hrest⟩ := ih h
      exact ⟨entry, List.mem_append_right _ hmem, hrest⟩

theorem visible?_innermost (h : visible? (scope :: outer) name = some binding)
    (hdepth : binding.depth = outer.length) :
    ∃ entry, named? scope name = some entry ∧
      binding = ⟨entry.ty, entry.slot, outer.length⟩ := by
  rw [visible?] at h
  split at h
  · rename_i entry hentry
    exact ⟨entry, hentry, (Option.some.inj h).symm⟩
  · have hlt := depth_lt_of_visible? h
    omega

theorem visible?_of_named?_eq_none (h : named? scope name = none) :
    visible? (scope :: outer) name = visible? outer name := by
  rw [visible?, h]

theorem visible?_of_named?_eq_some (h : named? scope name = some entry) :
    visible? (scope :: outer) name = some ⟨entry.ty, entry.slot, outer.length⟩ := by
  rw [visible?, h]

theorem filter_visible? (h : named? scope name = none ∨ visible? outer name = none) :
    (visible? (scope :: outer) name).filter (fun binding => binding.depth < outer.length) =
      visible? outer name := by
  rw [visible?]
  split
  · rename_i entry hentry
    have hnone := h.resolve_left (by simp [hentry])
    simp [hnone]
  · cases houter : visible? outer name with
    | none => rfl
    | some binding => simp [depth_lt_of_visible? houter]

theorem named?_declare (entry : SlotEntry) (scope : List SlotEntry) (name : String) :
    named? (entry :: scope.filter (·.name != entry.name)) name =
      if entry.name = name then some entry else named? scope name := by
  rw [named?, List.find?_cons]
  by_cases hname : entry.name = name
  · simp [hname]
  · rw [beq_eq_false_iff_ne.mpr hname, if_neg hname, List.find?_filter]
    have hkeep (other : SlotEntry) :
        decide ((other.name != entry.name) = true ∧ (other.name == name) = true) =
          (other.name == name) := by
      by_cases hother : other.name = name
      · simp [hother, Ne.symm hname]
      · simp [hother]
    simp only [hkeep]
    rfl

theorem visible?_declare (entry : SlotEntry) (scope : List SlotEntry) (outer : ScopeStack)
    (name : String) :
    visible? (declare entry (scope :: outer)) name =
      if entry.name = name then some ⟨entry.ty, entry.slot, outer.length⟩
      else visible? (scope :: outer) name := by
  rw [declare, visible?, named?_declare]
  split_ifs
  · rfl
  · rfl

end ScopeStack

namespace Slots

/-- The slots describe a stack of scopes. -/
structure Represents (slots : Slots) (scopes : ScopeStack) : Prop where
  depth : scopes.length = slots.depth + 1
  bindings : ∀ name : String, slots.bindings[name]? = scopes.visible? name
  shadowed : scopes.Hides slots.shadowed
  bounds : ∀ entry ∈ scopes.flatten, entry.slot.toNat < slots.frameSize
  distinct : scopes.flatten.Pairwise fun entry other => entry.slot ≠ other.slot

theorem represents_empty : empty.Represents [[]] where
  depth := rfl
  bindings := by simp [empty, ScopeStack.visible?, ScopeStack.named?]
  shadowed := ⟨[], [], rfl, by simp, by simp, rfl⟩
  bounds := by simp
  distinct := by simp

section Restore

variable {depth : Nat} {own rest : List Shadow}

theorem restore_rest (hrest : ∀ shadow ∈ rest, shadow.depth ≠ depth)
    (bindings : Std.TreeMap String Binding) : restore bindings depth rest = (bindings, rest) := by
  cases rest with
  | nil => rfl
  | cons shadow rest =>
    have hdepth : shadow.depth ≠ depth := hrest shadow List.mem_cons_self
    rw [restore, if_neg hdepth]

theorem restore_cons {shadow : Shadow} (hdepth : shadow.depth = depth)
    (bindings : Std.TreeMap String Binding) (rest : List Shadow) :
    restore bindings depth (shadow :: rest) =
      restore (bindings.insert shadow.name shadow.binding) depth rest := by
  rw [restore, if_pos hdepth]

theorem restore_append (hown : ∀ shadow ∈ own, shadow.depth = depth)
    (hrest : ∀ shadow ∈ rest, shadow.depth ≠ depth) (bindings : Std.TreeMap String Binding) :
    (restore bindings depth (own ++ rest)).2 = rest := by
  induction own generalizing bindings with
  | nil => rw [List.nil_append, restore_rest hrest]
  | cons shadow own ih =>
    obtain ⟨hshadow, hown⟩ := List.forall_mem_cons.mp hown
    rw [List.cons_append, restore_cons hshadow]
    exact ih hown _

/-- A name that the scope hid means again what it meant before. -/
theorem getElem?_restore (hown : ∀ shadow ∈ own, shadow.depth = depth)
    (hrest : ∀ shadow ∈ rest, shadow.depth ≠ depth) (hidden : String → Option Binding)
    (hhidden : ∀ shadow ∈ own, hidden shadow.name = some shadow.binding)
    (bindings : Std.TreeMap String Binding) (name : String) :
    (restore bindings depth (own ++ rest)).1[name]? = bindings[name]? ∧
        (∀ shadow ∈ own, shadow.name ≠ name) ∨
      (restore bindings depth (own ++ rest)).1[name]? = hidden name := by
  induction own generalizing bindings with
  | nil =>
    rw [List.nil_append, restore_rest hrest]
    exact .inl ⟨rfl, List.forall_mem_nil _⟩
  | cons shadow own ih =>
    obtain ⟨hshadow, hown⟩ := List.forall_mem_cons.mp hown
    obtain ⟨hbinding, hhidden⟩ := List.forall_mem_cons.mp hhidden
    rw [List.cons_append, restore_cons hshadow]
    rcases ih hown hhidden (bindings.insert shadow.name shadow.binding) with
      ⟨hsame, hother⟩ | hrestored
    · rw [hsame, Std.TreeMap.getElem?_insert]
      by_cases hname : shadow.name = name
      · rw [← hname, hbinding]
        simp
      · refine .inl ⟨?_, List.forall_mem_cons.mpr ⟨hname, hother⟩⟩
        simp [hname]
    · exact .inr hrestored

end Restore

end Slots

theorem ScopeStack.Hides.depth_lt {scopes : ScopeStack} {shadowed : List Shadow}
    (h : scopes.Hides shadowed) : ∀ shadow ∈ shadowed, shadow.depth < scopes.length := by
  induction scopes generalizing shadowed with
  | nil =>
    obtain rfl : shadowed = [] := h
    exact List.forall_mem_nil _
  | cons scope outer ih =>
    obtain ⟨own, rest, rfl, hown, _, hrest⟩ := h
    intro shadow hmem
    rw [List.length_cons]
    rcases List.mem_append.mp hmem with hmem | hmem
    · have hdepth := (hown shadow hmem).1
      omega
    · have hlt := ih hrest shadow hmem
      omega

namespace Slots.Represents

variable {slots slots' : Slots} {scopes outer : ScopeStack} {scope : List SlotEntry}

section

variable (h : slots.Represents (scope :: outer))

include h

theorem depth_eq : slots.depth = outer.length := by
  have hlength := h.depth
  rw [List.length_cons] at hlength
  omega

omit h in
theorem pushScope (h : slots.Represents scopes) : slots.pushScope.Represents ([] :: scopes) where
  depth := by
    rw [List.length_cons, h.depth]
    rfl
  bindings := h.bindings
  shadowed := ⟨[], slots.shadowed, rfl, List.forall_mem_nil _, List.forall_mem_nil _, h.shadowed⟩
  bounds := h.bounds
  distinct := h.distinct

omit h in
theorem reserve (h : slots.Represents scopes) (name : String) :
    (slots.reserve name).Represents scopes :=
  ⟨h.depth, h.bindings, h.shadowed, h.bounds, h.distinct⟩

/-- Leaving a scope makes visible what it hid. -/
theorem popScope (houter : outer ≠ []) : slots.popScope.Represents outer := by
  have hdepth := h.depth_eq
  have hpos : 0 < outer.length := List.length_pos_iff.mpr houter
  obtain ⟨own, rest, hshadowed, hown, hcovered, hrest⟩ := h.shadowed
  have hownDepth : ∀ shadow ∈ own, shadow.depth = slots.depth :=
    fun shadow hmem => (hown shadow hmem).1.trans hdepth.symm
  have hrestDepth : ∀ shadow ∈ rest, shadow.depth ≠ slots.depth := by
    intro shadow hmem
    have hlt := hrest.depth_lt shadow hmem
    omega
  have hpop : slots.popScope =
      { slots with
        bindings := (restore (slots.bindings.filter fun _ binding => binding.depth < slots.depth)
          slots.depth (own ++ rest)).1
        shadowed := rest
        depth := slots.depth - 1 } := by
    rw [Slots.popScope, if_neg (by omega), hshadowed]
    simp only [restore_append hownDepth hrestDepth]
  rw [hpop]
  refine ⟨?_, fun name => ?_, hrest, fun entry hmem => ?_, ?_⟩
  · change outer.length = slots.depth - 1 + 1
    omega
  · change (restore _ slots.depth (own ++ rest)).1[name]? = _
    rcases getElem?_restore hownDepth hrestDepth outer.visible?
      (fun shadow hmem => (hown shadow hmem).2) _ name with ⟨hsame, hother⟩ | hrestored
    · rw [hsame, Std.TreeMap.getElem?_filter', h.bindings, hdepth]
      refine ScopeStack.filter_visible? ?_
      cases hentry : ScopeStack.named? scope name with
      | none => exact .inl rfl
      | some entry =>
        obtain ⟨hmem, rfl⟩ := ScopeStack.named?_eq_some hentry
        refine .inr (Option.eq_none_iff_forall_ne_some.mpr fun binding hbinding => ?_)
        obtain ⟨shadow, hshadow, hname⟩ := hcovered entry hmem binding hbinding
        exact hother shadow hshadow hname
    · exact hrestored
  · exact h.bounds entry (List.mem_append_right _ hmem)
  · exact (List.pairwise_append.mp h.distinct).2.1

/-- Putting a binding aside keeps what the scopes hide, and adds the binding
that the name has outside. -/
theorem exists_hides_shadow (name : String) :
    ∃ own rest, (slots.shadow name).shadowed = own ++ rest ∧ (∀ shadow ∈ own,
        shadow.depth = outer.length ∧ outer.visible? shadow.name = some shadow.binding) ∧
      (∀ other, other = name ∨ (∃ entry ∈ scope, entry.name = other) →
        ∀ binding, outer.visible? other = some binding → ∃ shadow ∈ own, shadow.name = other) ∧
      outer.Hides rest := by
  have hdepth := h.depth_eq
  obtain ⟨own, rest, hshadowed, hown, hcovered, hrest⟩ := h.shadowed
  have hcovers {own' : List Shadow} (hsubset : own ⊆ own')
      (hname : ∀ binding, outer.visible? name = some binding →
        ∃ shadow ∈ own', shadow.name = name) (other : String)
      (hother : other = name ∨ ∃ entry ∈ scope, entry.name = other) (binding : Binding)
      (hbinding : outer.visible? other = some binding) :
      ∃ shadow ∈ own', shadow.name = other := by
    rcases hother with rfl | ⟨entry, hmem, rfl⟩
    · exact hname binding hbinding
    · obtain ⟨shadow, hshadow, heq⟩ := hcovered entry hmem binding hbinding
      exact ⟨shadow, hsubset hshadow, heq⟩
  have hvisible := h.bindings name
  unfold Slots.shadow
  cases hfound : ScopeStack.named? scope name with
  | some found =>
    -- The scope already declares the name, so what it hides is put aside.
    rw [ScopeStack.visible?_of_named?_eq_some hfound] at hvisible
    obtain ⟨hmem, hname⟩ := ScopeStack.named?_eq_some hfound
    rw [hvisible]
    dsimp only
    rw [if_pos hdepth.symm]
    refine ⟨own, rest, hshadowed, hown, hcovers (List.Subset.refl _) ?_, hrest⟩
    intro binding hbinding
    rw [← hname] at hbinding ⊢
    exact hcovered found hmem binding hbinding
  | none =>
    rw [ScopeStack.visible?_of_named?_eq_none hfound] at hvisible
    rw [hvisible]
    cases houter : outer.visible? name with
    | none =>
      refine ⟨own, rest, hshadowed, hown, hcovers (List.Subset.refl _) ?_, hrest⟩
      intro binding hbinding
      cases houter.symm.trans hbinding
    | some existing =>
      have hlt := ScopeStack.depth_lt_of_visible? houter
      dsimp only
      rw [if_neg (by omega)]
      refine ⟨⟨slots.depth, name, existing⟩ :: own, rest, ?_, ?_,
        hcovers (List.subset_cons_self _ _) ?_, hrest⟩
      · rw [List.cons_append, ← hshadowed]
      · exact List.forall_mem_cons.mpr ⟨⟨hdepth, houter⟩, hown⟩
      · exact fun _ _ => ⟨_, List.mem_cons_self, rfl⟩

theorem hides_shadow (entry : SlotEntry) :
    ScopeStack.Hides (ScopeStack.declare entry (scope :: outer))
      (slots.shadow entry.name).shadowed := by
  obtain ⟨own, rest, hshadowed, hown, hcovers, hrest⟩ := h.exists_hides_shadow entry.name
  refine ⟨own, rest, hshadowed, hown, List.forall_mem_cons.mpr ⟨?_, fun other hmem => ?_⟩, hrest⟩
  · exact hcovers entry.name (.inl rfl)
  · exact hcovers other.name (.inr ⟨other, List.mem_of_mem_filter hmem, rfl⟩)

theorem shadow (name : String) : (slots.shadow name).Represents (scope :: outer) := by
  obtain ⟨own, rest, hshadowed, hown, hcovers, hrest⟩ := h.exists_hides_shadow name
  have hhides : ScopeStack.Hides (scope :: outer) (slots.shadow name).shadowed := by
    refine ⟨own, rest, hshadowed, hown, fun entry hmem => ?_, hrest⟩
    exact hcovers entry.name (.inr ⟨entry, hmem, rfl⟩)
  rw [shadow_eq]
  exact ⟨h.depth, h.bindings, hhides, h.bounds, h.distinct⟩

omit h in
theorem mem_of_mem_declare {other : SlotEntry}
    (hmem : other ∈ (ScopeStack.declare entry (scope :: outer)).flatten) :
    other = entry ∨ other ∈ (scope :: outer).flatten ∧ (other.name ≠ entry.name ∨
      other ∈ outer.flatten) := by
  simp only [ScopeStack.declare, List.flatten_cons, List.cons_append, List.mem_cons,
    List.mem_append, List.mem_filter, bne_iff_ne] at hmem ⊢
  tauto

theorem distinct_declare (hnew : ∀ other ∈ scope.filter (·.name != entry.name) ++ outer.flatten,
      entry.slot ≠ other.slot) : (ScopeStack.declare entry (scope :: outer)).flatten.Pairwise
      fun entry other => entry.slot ≠ other.slot := by
  have hsublist : (scope.filter (·.name != entry.name) ++ outer.flatten).Sublist
      (scope ++ outer.flatten) := List.filter_sublist.append_right _
  rw [ScopeStack.declare, List.flatten_cons, List.cons_append]
  exact List.pairwise_cons.mpr ⟨hnew, h.distinct.sublist hsublist⟩

/-- Declaring a variable again changes nothing. -/
theorem redeclare (hentry : ScopeStack.named? scope entry.name = some entry) :
    slots.Represents (ScopeStack.declare entry (scope :: outer)) := by
  obtain ⟨hmem, _⟩ := ScopeStack.named?_eq_some hentry
  obtain ⟨hinner, houter, hacross⟩ := List.pairwise_append.mp h.distinct
  obtain ⟨own, rest, hshadowed, hown, hcovered, hrest⟩ := h.shadowed
  refine ⟨h.depth, fun name => ?_, ⟨own, rest, hshadowed, hown, ?_, hrest⟩, ?_, ?_⟩
  · rw [ScopeStack.visible?_declare]
    split_ifs with hname
    · rw [h.bindings, ← hname, ScopeStack.visible?_of_named?_eq_some hentry]
    · exact h.bindings name
  · refine List.forall_mem_cons.mpr ⟨hcovered entry hmem, fun other hother => ?_⟩
    exact hcovered other (List.mem_of_mem_filter hother)
  · intro other hother
    rcases mem_of_mem_declare hother with rfl | ⟨hold, _⟩
    · exact h.bounds other (List.mem_append_left _ hmem)
    · exact h.bounds other hold
  · refine h.distinct_declare fun other hother => ?_
    rcases List.mem_append.mp hother with hinside | houtside
    · obtain ⟨hinside, hname⟩ := List.mem_filter.mp hinside
      have hsymm : Std.Symm fun entry other : SlotEntry => entry.slot ≠ other.slot :=
        ⟨fun _ _ hne => Ne.symm hne⟩
      refine hinner.forall hmem hinside ?_
      rintro rfl
      simp at hname
    · exact hacross entry hmem other houtside

/-- A declaration gives the variable a slot in the innermost scope. -/
theorem declare {name : String} {ty : Ty} (hslot : slots.declare name ty = (.ok slot, slots')) :
    slots'.Represents (ScopeStack.declare ⟨name, ty, slot⟩ (scope :: outer)) := by
  have hdepth := h.depth_eq
  rcases Slots.declare_eq_ok hslot with ⟨hredeclared, rfl⟩ | ⟨_, hnext, rfl⟩
  · obtain ⟨binding, hbinding, rfl, rfl, hinnermost⟩ := redeclared?_eq_some hredeclared
    rw [h.bindings] at hbinding
    obtain ⟨entry, hentry, rfl⟩ :=
      ScopeStack.visible?_innermost hbinding (hinnermost.trans hdepth)
    obtain ⟨_, rfl⟩ := ScopeStack.named?_eq_some hentry
    exact h.redeclare hentry
  · have hsize : slot.toNat = slots.frameSize := by
      rw [nextSlot_eq_ok hnext, shadow_eq]
    have hgrows : ((slots.shadow name).allocate name ty slot).frameSize =
        slots.frameSize + max 1 ty.width := by
      rw [Slots.allocate, shadow_eq]
    refine ⟨?_, fun other => ?_, h.hides_shadow ⟨name, ty, slot⟩, fun entry hmem => ?_, ?_⟩
    · change outer.length + 1 = (slots.shadow name).depth + 1
      rw [shadow_eq, hdepth]
    · rw [ScopeStack.visible?_declare, ← h.bindings, Slots.allocate, shadow_eq,
        Std.TreeMap.getElem?_insert, hdepth]
      simp
    · rcases mem_of_mem_declare hmem with rfl | ⟨hold, _⟩
      · dsimp only
        omega
      · have hlt := h.bounds entry hold
        omega
    · refine h.distinct_declare fun other hother heq => ?_
      have hold : other ∈ (scope :: outer).flatten :=
        (List.filter_sublist.append_right _).subset hother
      have hlt := h.bounds other hold
      have hslot : slot = other.slot := heq
      rw [← hslot] at hlt
      omega

end

end Slots.Represents

/-- A variable of an evaluation has its value in the slot of the entry. -/
structure SlotEntry.Carries (locals : List Int32) (entry : SlotEntry) (var : String × Value) :
    Prop where
  name : var.1 = entry.name
  ty : var.2.ty = entry.ty
  cell : locals[entry.slot.toNat]? = some var.2.cell

theorem SlotEntry.Carries.set {locals : List Int32} {var : String × Value}
    (h : entry.Carries locals var) (hslot : slot ≠ entry.slot) (cell : Int32) :
    entry.Carries (locals.set slot.toNat cell) var := by
  have hne : slot.toNat ≠ entry.slot.toNat := fun heq => hslot (UInt16.toNat_inj.mp heq)
  exact ⟨h.name, h.ty, by rw [List.getElem?_set_ne hne, h.cell]⟩

/-- Every variable of an evaluation has its value in its slot. -/
def ScopeStack.Agrees (scopes : ScopeStack) (vars : Variables) (locals : List Int32) : Prop :=
  List.Forall₂ (List.Forall₂ (SlotEntry.Carries locals)) scopes vars

namespace ScopeStack

variable {scopes outer : ScopeStack} {scope : List SlotEntry} {vars : Variables}
  {frame : List (String × Value)} {locals : List Int32} {name : String} {value : Value}

section OneScope

theorem lookup_of_named? (h : List.Forall₂ (SlotEntry.Carries locals) scope frame)
    (name : String) :
    match named? scope name with
    | some entry => ∃ value, frame.lookup name = some value ∧ entry.Carries locals (name, value)
    | none => frame.lookup name = none := by
  induction h with
  | nil => rfl
  | @cons entry var scope frame hentry _ ih =>
    obtain ⟨other, value⟩ := var
    obtain rfl : other = entry.name := hentry.name
    rw [named?, List.find?_cons, List.lookup_cons]
    by_cases hname : entry.name = name
    · subst hname
      simpa using hentry
    · rw [beq_eq_false_iff_ne.mpr hname, beq_eq_false_iff_ne.mpr (Ne.symm hname)]
      exact ih

theorem lookup_of_named?_eq_some (h : List.Forall₂ (SlotEntry.Carries locals) scope frame)
    (hentry : named? scope name = some entry) :
    ∃ value, frame.lookup name = some value ∧ entry.Carries locals (name, value) := by
  have hlookup := lookup_of_named? h name
  rwa [hentry] at hlookup

theorem lookup_of_named?_eq_none (h : List.Forall₂ (SlotEntry.Carries locals) scope frame)
    (hentry : named? scope name = none) : frame.lookup name = none := by
  have hlookup := lookup_of_named? h name
  rwa [hentry] at hlookup

theorem carries_set (h : List.Forall₂ (SlotEntry.Carries locals) scope frame)
    (hslot : ∀ entry ∈ scope, slot ≠ entry.slot) (cell : Int32) :
    List.Forall₂ (SlotEntry.Carries (locals.set slot.toNat cell)) scope frame := by
  induction h with
  | nil => exact .nil
  | cons hentry _ ih =>
    obtain ⟨hhead, hrest⟩ := List.forall_mem_cons.mp hslot
    exact .cons (hentry.set hhead cell) (ih hrest)

/-- A store to the slot of a variable changes its value only. -/
theorem carries_update (h : List.Forall₂ (SlotEntry.Carries locals) scope frame)
    (hentry : named? scope name = some entry) (hty : value.ty = entry.ty)
    (hdistinct : scope.Pairwise fun entry other => entry.slot ≠ other.slot) :
    List.Forall₂ (SlotEntry.Carries (locals.set entry.slot.toNat value.cell)) scope
      (Variables.update name value frame) := by
  induction h with
  | nil => cases hentry
  | @cons head var scope frame hhead hrest ih =>
    obtain ⟨hfirst, hothers⟩ := List.pairwise_cons.mp hdistinct
    rw [named?, List.find?_cons] at hentry
    rw [Variables.update, hhead.name]
    by_cases hname : head.name = name
    · rw [beq_iff_eq.mpr hname] at hentry
      obtain rfl : head = entry := Option.some.inj hentry
      have hlt := (List.getElem?_eq_some_iff.mp hhead.cell).1
      rw [if_pos hname]
      exact .cons ⟨hname.symm, hty, List.getElem?_set_self hlt⟩ (carries_set hrest hfirst _)
    · rw [beq_eq_false_iff_ne.mpr hname] at hentry
      have hmem := (named?_eq_some hentry).1
      rw [if_neg hname]
      exact .cons (hhead.set (Ne.symm (hfirst entry hmem)) _) (ih hentry hothers)

theorem carries_filter (h : List.Forall₂ (SlotEntry.Carries locals) scope frame)
    (name : String) :
    List.Forall₂ (SlotEntry.Carries locals) (scope.filter (·.name != name))
      (frame.filter (·.1 != name)) := by
  induction h with
  | nil => exact .nil
  | cons hentry _ ih =>
    rw [List.filter_cons, List.filter_cons, hentry.name]
    split_ifs
    · exact .cons hentry ih
    · exact ih

end OneScope

namespace Agrees

theorem push (h : scopes.Agrees vars locals) : Agrees ([] :: scopes) ([] :: vars) locals :=
  .cons .nil h

theorem tail (h : scopes.Agrees vars locals) : Agrees scopes.tail vars.tail locals := by
  cases h with
  | nil => exact .nil
  | cons _ houter => exact houter

/-- A visible variable has a value of its type, which its slot holds. -/
theorem lookup (h : scopes.Agrees vars locals) (hvisible : scopes.visible? name = some binding) :
    ∃ value, vars.lookup? name = some value ∧ value.ty = binding.ty ∧
      locals[binding.slot.toNat]? = some value.cell := by
  induction h with
  | nil => cases hvisible
  | @cons scope frame outer vars hscope _ ih =>
    rw [Variables.lookup?, List.findSome?_cons]
    cases hentry : named? scope name with
    | some entry =>
      rw [visible?_of_named?_eq_some hentry] at hvisible
      obtain ⟨value, hlookup, hcarries⟩ := lookup_of_named?_eq_some hscope hentry
      obtain rfl := Option.some.inj hvisible
      rw [hlookup]
      exact ⟨value, rfl, hcarries.ty, hcarries.cell⟩
    | none =>
      rw [visible?_of_named?_eq_none hentry] at hvisible
      rw [lookup_of_named?_eq_none hscope hentry]
      exact ih hvisible

theorem set (h : scopes.Agrees vars locals) (hslot : ∀ entry ∈ scopes.flatten, slot ≠ entry.slot)
    (cell : Int32) :
    scopes.Agrees vars (locals.set slot.toNat cell) := by
  induction h with
  | nil => exact .nil
  | cons hscope _ ih =>
    obtain ⟨hinner, houter⟩ := List.forall_mem_append.mp hslot
    exact .cons (carries_set hscope hinner cell) (ih houter)

/-- An assignment to a visible variable is a store to its slot. -/
theorem assign (h : scopes.Agrees vars locals) (hvisible : scopes.visible? name = some binding)
    (hty : value.ty = binding.ty)
    (hdistinct : scopes.flatten.Pairwise fun entry other => entry.slot ≠ other.slot) :
    ∃ after, vars.assign? name value = some after ∧
      scopes.Agrees after (locals.set binding.slot.toNat value.cell) := by
  induction h with
  | nil => cases hvisible
  | @cons scope frame outer vars hscope houter ih =>
    obtain ⟨hinner, hrest, hacross⟩ := List.pairwise_append.mp hdistinct
    rw [Variables.assign?]
    cases hentry : named? scope name with
    | some entry =>
      rw [visible?_of_named?_eq_some hentry] at hvisible
      obtain rfl := Option.some.inj hvisible
      obtain ⟨old, hlookup, _⟩ := lookup_of_named?_eq_some hscope hentry
      have hmem := (named?_eq_some hentry).1
      rw [hlookup, if_pos Option.isSome_some]
      exact ⟨_, rfl, .cons (carries_update hscope hentry hty hinner)
        (Agrees.set houter (hacross entry hmem) _)⟩
    | none =>
      rw [visible?_of_named?_eq_none hentry] at hvisible
      obtain ⟨after, hafter, hagrees⟩ := ih hvisible hrest
      obtain ⟨entry, hmem, hslot, _⟩ := exists_entry_of_visible? hvisible
      rw [lookup_of_named?_eq_none hscope hentry, if_neg (by simp), hafter]
      refine ⟨_, rfl, .cons (carries_set hscope (fun other hother => ?_) _) hagrees⟩
      rw [← hslot]
      exact Ne.symm (hacross other hother entry hmem)

/-- A declaration is a store to the slot of the new variable. -/
theorem declare (h : Agrees (scope :: outer) vars locals) (hslot : slot.toNat < locals.length)
    (hdistinct : (ScopeStack.declare ⟨name, value.ty, slot⟩ (scope :: outer)).flatten.Pairwise
      fun entry other => entry.slot ≠ other.slot) :
    (ScopeStack.declare ⟨name, value.ty, slot⟩ (scope :: outer)).Agrees
      (vars.declare name value) (locals.set slot.toNat value.cell) := by
  obtain ⟨hfresh, _⟩ := List.pairwise_cons.mp hdistinct
  obtain ⟨hinner, houterFresh⟩ := List.forall_mem_append.mp hfresh
  cases h with
  | cons hscope houter =>
    refine .cons (.cons ⟨rfl, rfl, List.getElem?_set_self hslot⟩ ?_) ?_
    · exact carries_set (carries_filter hscope name) hinner _
    · exact Agrees.set houter houterFresh _

end Agrees

end ScopeStack

end StackLowering
