import StackLowering.Proofs.LexicalScopes
/-!
The layout of the frame. The variables of the table lie back to back, in the
order in which they got their slots, and fill the frame. A variable that is
visible or hidden is one of them. Requests only add to the table, behind what is
there, so the cells of a variable are its own, also when its scope has been left.
-/

namespace StackLowering

variable {name : String} {entry : SlotEntry} {slot : UInt16}

namespace SlotEntry

/-- Cells that a variable takes. One without a value takes a cell, too. -/
def size (entry : SlotEntry) : Nat := max 1 entry.ty.width

/-- The cells of a variable. -/
def cells (entry : SlotEntry) : Finset Nat :=
  Finset.Ico entry.slot.toNat (entry.slot.toNat + entry.size)

/-- A variable as it stands in the table. -/
def ofBinding (name : String) (binding : Binding) : SlotEntry := ⟨name, binding.ty, binding.slot⟩

theorem size_le (entry : SlotEntry) : entry.size ≤ 2 := by
  have hwidth : entry.ty.width ≤ 2 := by
    cases entry.ty with
    | prim prim => cases prim <;> decide
    | _ => exact Nat.le_succ 1
  exact Nat.max_le.mpr ⟨by decide, hwidth⟩

/-- The variables lie back to back from one cell up to another. -/
def Tiles : Nat → List SlotEntry → Nat → Prop
  | start, [], stop => start = stop
  | start, entry :: rest, stop => entry.slot.toNat = start ∧ Tiles (start + entry.size) rest stop

namespace Tiles

variable {start stop : Nat} {entries : List SlotEntry}

theorem concat (h : Tiles start entries stop) (hslot : entry.slot.toNat = stop) :
    Tiles start (entries ++ [entry]) (stop + entry.size) := by
  induction entries generalizing start with
  | nil =>
    obtain rfl : start = stop := h
    exact ⟨hslot, rfl⟩
  | cons first rest ih => exact ⟨h.1, ih h.2⟩

theorem sum_eq (h : Tiles start entries stop) : start + (entries.map size).sum = stop := by
  induction entries generalizing start with
  | nil => exact h
  | cons entry rest ih =>
    rw [List.map_cons, List.sum_cons, ← Nat.add_assoc]
    exact ih h.2

theorem bounds (h : Tiles start entries stop) :
    ∀ entry ∈ entries, start ≤ entry.slot.toNat ∧ entry.slot.toNat + entry.size ≤ stop := by
  induction entries generalizing start with
  | nil => exact List.forall_mem_nil _
  | cons first rest ih =>
    have hstop := sum_eq h.2
    refine List.forall_mem_cons.mpr ⟨?_, fun entry hmem => ?_⟩
    · have hfirst := h.1
      omega
    · have hrest := ih h.2 entry hmem
      omega

theorem pairwise_disjoint (h : Tiles start entries stop) :
    entries.Pairwise fun entry other => Disjoint entry.cells other.cells := by
  induction entries generalizing start with
  | nil => exact .nil
  | cons first rest ih =>
    refine List.pairwise_cons.mpr ⟨fun other hmem => ?_, ih h.2⟩
    have hfirst := h.1
    have hother := (bounds h.2 other hmem).1
    refine Finset.disjoint_left.mpr fun cell hcell hcell' => ?_
    simp only [cells, Finset.mem_Ico] at hcell hcell'
    omega

end Tiles

end SlotEntry

/-- What is hidden belongs to a variable of the stack. -/
theorem ScopeStack.Hides.exists_entry {scopes : ScopeStack} {shadowed : List Shadow}
    (h : scopes.Hides shadowed) :
    ∀ shadow ∈ shadowed, ∃ entry ∈ scopes.flatten, entry.slot = shadow.binding.slot := by
  induction scopes generalizing shadowed with
  | nil =>
    obtain rfl : shadowed = [] := h
    exact List.forall_mem_nil _
  | cons scope outer ih =>
    obtain ⟨own, rest, rfl, hown, _, hrest⟩ := h
    refine List.forall_mem_append.mpr ⟨fun shadow hmem => ?_, fun shadow hmem => ?_⟩
    · obtain ⟨entry, hentry, hslot, _⟩ := exists_entry_of_visible? (hown shadow hmem).2
      exact ⟨entry, List.mem_append_right _ hentry, hslot⟩
    · obtain ⟨entry, hentry, hslot⟩ := ih hrest shadow hmem
      exact ⟨entry, List.mem_append_right _ hentry, hslot⟩

namespace LexicalScopes

variable {model : LexicalScopes}

/-- All variables of the nested scopes. -/
def entries (model : LexicalScopes) : List SlotEntry := (model.current :: model.outer).flatten

/-- A request keeps variables or drops them. One that it adds has the next cells. -/
theorem mem_serve (request : Slots.Request) (h : entry ∈ (model.serve request).2.entries) :
    entry ∈ model.entries ∨ entry.slot.toNat = model.cells := by
  cases request with
  | pushScope => exact .inl h
  | popScope =>
    simp only [LexicalScopes.serve, pop] at h
    cases houter : model.outer with
    | nil =>
      rw [houter] at h
      exact .inl h
    | cons scope rest =>
      rw [houter] at h
      refine .inl ?_
      rw [entries, houter]
      exact List.mem_append_right _ h
  | declare name ty =>
    simp only [LexicalScopes.serve, LexicalScopes.declare] at h
    split at h
    · exact .inl h
    · split_ifs at h with hcells
      · rw [entries, List.flatten_cons, LexicalScopes.bind, List.cons_append, List.mem_cons,
          List.mem_append] at h
        rcases h with rfl | hold | hold
        · exact .inr (UInt16.toNat_ofNat_of_lt' hcells)
        · exact .inl (List.mem_append_left _ (List.mem_of_mem_filter hold))
        · exact .inl (List.mem_append_right _ hold)
      · exact .inl h
  | reserve name | uniqueName base | lookup name | require name ty => exact .inl h

theorem Bounded.mem_after (h : model.Bounded) (requests : List Slots.Request)
    (hentry : entry ∈ (model.after requests).entries) :
    entry ∈ model.entries ∨ model.cells ≤ entry.slot.toNat := by
  induction requests generalizing model with
  | nil => exact .inl hentry
  | cons request rest ih =>
    obtain ⟨hbounded, hgrows, _⟩ := h.serve request
    rcases ih hbounded hentry with hmem | hlater
    · rcases mem_serve request hmem with hold | hnew
      · exact .inl hold
      · exact .inr hnew.ge
    · exact .inr (hgrows.trans hlater)

theorem bounded_after (requests : List Slots.Request) : (empty.after requests).Bounded := by
  have hempty : empty.Bounded := by
    intro entry hmem
    cases hmem
  induction requests using List.reverseRecOn with
  | nil => exact hempty
  | append_singleton requests request ih =>
    rw [after, List.foldl_append]
    exact (ih.serve request).1

end LexicalScopes

namespace Slots

/-- The slots after a sequence of requests. -/
def after (slots : Slots) (requests : List Request) : Slots :=
  requests.foldl (fun slots request => (slots.serve request).2) slots

/-- The slot of a variable that can be used, now or when scopes have been left. -/
def InUse (slots : Slots) (slot : UInt16) : Prop :=
  (∃ (name : String) (binding : Binding), slots.bindings[name]? = some binding ∧
    binding.slot = slot) ∨ ∃ shadow ∈ slots.shadowed, shadow.binding.slot = slot

/-- What a request can do to the variables: nothing, leave their scope, put a
binding aside for a variable that gets no slot, or give it the next one. -/
inductive Change (slots : Slots) : Slots → Prop
  | keep {slots' : Slots} (hbindings : slots'.bindings = slots.bindings)
      (hshadowed : slots'.shadowed = slots.shadowed) (hsize : slots'.frameSize = slots.frameSize)
      (htable : slots'.table = slots.table) : Change slots slots'
  | leave : Change slots slots.popScope
  | refuse (name : String) : Change slots (slots.shadow name)
  | allocate {name : String} {ty : Ty} {slot : UInt16}
      (hslot : (slots.shadow name).nextSlot = .ok slot) :
      Change slots ((slots.shadow name).allocate name ty slot)

theorem nextSlot_shadow (slots : Slots) (name : String) :
    (slots.shadow name).nextSlot = slots.nextSlot := by
  rw [shadow_eq]
  rfl

theorem declare_eq_error {slots slots' : Slots} {ty : Ty} {fault : Fault}
    (h : slots.declare name ty = (.error fault, slots')) :
    slots.redeclared? name ty = none ∧ 65536 ≤ slots.frameSize ∧
      fault = .operandOverflow .localSlot slots.frameSize ∧ slots' = slots.shadow name := by
  unfold Slots.declare at h
  cases hredeclared : slots.redeclared? name ty with
  | some existing =>
    rw [hredeclared] at h
    cases h
  | none =>
    rw [hredeclared] at h
    dsimp only at h
    rw [nextSlot_shadow, nextSlot] at h
    split_ifs at h with hlt
    · cases h
    · cases h
      exact ⟨rfl, Nat.le_of_not_lt hlt, rfl, rfl⟩

theorem change_serve (slots : Slots) (request : Request) :
    slots.Change (slots.serve request).2 := by
  cases request with
  | pushScope | reserve name | uniqueName base | lookup name | require name ty =>
    exact .keep rfl rfl rfl rfl
  | popScope => exact .leave
  | declare name ty =>
    cases hdeclare : slots.declare name ty with
    | mk outcome slots' =>
      have hserve : (slots.serve (.declare name ty)).2 = slots' := congrArg Prod.snd hdeclare
      rw [hserve]
      cases outcome with
      | error fault =>
        obtain ⟨_, _, _, rfl⟩ := declare_eq_error hdeclare
        exact .refuse name
      | ok slot =>
        rcases declare_eq_ok hdeclare with ⟨_, rfl⟩ | ⟨_, hnext, rfl⟩
        · exact .keep rfl rfl rfl rfl
        · exact .allocate hnext

/-- The frame has no gaps, its size can be counted in 32 bits, and it holds every
variable. -/
structure Arranged (slots : Slots) : Prop where
  tiles : SlotEntry.Tiles 0 slots.table.toList slots.frameSize
  size : slots.frameSize ≤ 65537
  visible : ∀ (name : String) (binding : Binding), slots.bindings[name]? = some binding →
    SlotEntry.ofBinding name binding ∈ slots.table.toList
  hidden : ∀ shadow ∈ slots.shadowed,
    SlotEntry.ofBinding shadow.name shadow.binding ∈ slots.table.toList

theorem arranged_empty : empty.Arranged where
  tiles := rfl
  size := Nat.zero_le _
  visible := by simp [empty]
  hidden := by simp [empty]

namespace Arranged

variable {slots slots' : Slots}

theorem popScope (h : slots.Arranged) : slots.popScope.Arranged := by
  unfold Slots.popScope
  split_ifs
  · exact h
  · refine ⟨h.tiles, h.size, fun name binding hbinding => ?_, fun shadow hmem => ?_⟩
    · rcases mem_restore hbinding with hvisible | ⟨shadow, hmem, rfl, rfl⟩
      · rw [Std.TreeMap.getElem?_filter, Option.pfilter_eq_some_iff] at hvisible
        obtain ⟨hbefore, _⟩ := hvisible
        exact h.visible name binding hbefore
      · exact h.hidden shadow hmem
    · exact h.hidden shadow (restore_subset shadow hmem)

theorem shadow (h : slots.Arranged) (name : String) : (slots.shadow name).Arranged := by
  unfold Slots.shadow
  cases hbinding : slots.bindings[name]? with
  | none => exact h
  | some existing =>
    dsimp only
    split_ifs
    · exact h
    · refine ⟨h.tiles, h.size, h.visible, List.forall_mem_cons.mpr ⟨?_, h.hidden⟩⟩
      exact h.visible name existing hbinding

theorem allocate (h : slots.Arranged) (hslot : slots.nextSlot = .ok slot) (name : String) (ty : Ty) :
    (slots.allocate name ty slot).Arranged := by
  have hposition := nextSlot_eq_ok hslot
  have hlt := slot.toNat_lt
  have hsize := SlotEntry.size_le ⟨name, ty, slot⟩
  have htable : (slots.allocate name ty slot).table.toList =
      slots.table.toList ++ [⟨name, ty, slot⟩] := Array.toList_push ..
  refine ⟨?_, ?_, fun other binding hbinding => ?_, fun shadow hmem => ?_⟩
  · rw [htable]
    exact h.tiles.concat hposition
  · change slots.frameSize + SlotEntry.size ⟨name, ty, slot⟩ ≤ 65537
    omega
  · rw [htable, List.mem_append, List.mem_singleton]
    rw [Slots.allocate, Std.TreeMap.getElem?_insert] at hbinding
    split_ifs at hbinding with hname
    · obtain rfl : name = other := Std.LawfulEqCmp.eq_of_compare hname
      cases hbinding
      exact .inr rfl
    · exact .inl (h.visible other binding hbinding)
  · rw [htable]
    exact List.mem_append_left _ (h.hidden shadow hmem)

theorem change (h : slots.Arranged) (hchange : slots.Change slots') : slots'.Arranged := by
  cases hchange with
  | keep hbindings hshadowed hsize htable =>
    obtain ⟨htiles, hbound, hvisible, hhidden⟩ := h
    constructor
    · rwa [htable, hsize]
    · rwa [hsize]
    · rwa [hbindings, htable]
    · rwa [hshadowed, htable]
  | leave => exact h.popScope
  | refuse name => exact h.shadow name
  | allocate hslot => exact (h.shadow _).allocate hslot _ _

theorem after (h : slots.Arranged) (requests : List Request) : (slots.after requests).Arranged := by
  induction requests generalizing slots with
  | nil => exact h
  | cons request rest ih => exact ih (h.change (slots.change_serve request))

end Arranged

/-- The table only grows, and what is added has cells behind all others. -/
structure Grows (slots slots' : Slots) : Prop where
  added : ∃ added, slots'.table.toList = slots.table.toList ++ added ∧
    ∀ entry ∈ added, slots.frameSize ≤ entry.slot.toNat
  size : slots.frameSize ≤ slots'.frameSize

namespace Grows

variable {slots middle slots' : Slots}

theorem of_eq (htable : slots'.table = slots.table) (hsize : slots'.frameSize = slots.frameSize) :
    slots.Grows slots' :=
  ⟨⟨[], by rw [htable, List.append_nil], List.forall_mem_nil _⟩, hsize.ge⟩

theorem trans (h : slots.Grows middle) (h' : middle.Grows slots') : slots.Grows slots' := by
  obtain ⟨⟨added, htable, hadded⟩, hsize⟩ := h
  obtain ⟨⟨more, htable', hmore⟩, hsize'⟩ := h'
  refine ⟨⟨added ++ more, ?_, List.forall_mem_append.mpr ⟨hadded, ?_⟩⟩, hsize.trans hsize'⟩
  · rw [htable', htable, List.append_assoc]
  · exact fun entry hmem => hsize.trans (hmore entry hmem)

theorem change (h : slots.Change slots') : slots.Grows slots' := by
  cases h with
  | keep _ _ hsize htable => exact .of_eq htable hsize
  | leave =>
    rw [popScope_eq]
    exact .of_eq rfl rfl
  | refuse name =>
    rw [shadow_eq]
    exact .of_eq rfl rfl
  | @allocate name ty slot hslot =>
    rw [nextSlot_shadow] at hslot
    have hposition := nextSlot_eq_ok hslot
    rw [shadow_eq]
    refine ⟨⟨[⟨name, ty, slot⟩], Array.toList_push .., ?_⟩, Nat.le_add_right _ _⟩
    intro entry hmem
    rw [List.mem_singleton.mp hmem]
    exact hposition.ge

theorem after (slots : Slots) (requests : List Request) : slots.Grows (slots.after requests) := by
  induction requests generalizing slots with
  | nil => exact .of_eq rfl rfl
  | cons request rest ih => exact (change (slots.change_serve request)).trans (ih _)

end Grows

namespace Refines

variable {slots : Slots} {model : LexicalScopes}

theorem after (h : slots.Refines model) (requests : List Request) :
    (slots.after requests).Refines (model.after requests) := by
  induction requests generalizing slots model with
  | nil => exact h
  | cons request rest ih => exact ih (h.serve request).2

theorem exists_of_inUse (h : slots.Refines model) (hslot : slots.InUse slot) :
    ∃ entry ∈ model.entries, entry.slot = slot := by
  rcases hslot with ⟨name, binding, hbinding, rfl⟩ | ⟨shadow, hmem, rfl⟩
  · rw [h.represents.bindings] at hbinding
    obtain ⟨entry, hmem, hslot, _⟩ := ScopeStack.exists_entry_of_visible? hbinding
    exact ⟨entry, hmem, hslot⟩
  · exact ScopeStack.Hides.exists_entry h.represents.shadowed shadow hmem

/-- A variable of a scope that has been left is never used again. -/
theorem not_inUse_of_left (h : slots.Refines model) (hbounded : model.Bounded) {binding : Binding}
    (hbinding : slots.bindings[name]? = some binding) (hdepth : binding.depth = slots.depth)
    (hinside : 0 < slots.depth) (later : List Request) :
    ¬ (slots.popScope.after later).InUse binding.slot := by
  intro hused
  rw [h.represents.bindings] at hbinding
  rw [h.represents.depth_eq] at hdepth hinside
  obtain ⟨entry, hnamed, rfl⟩ := ScopeStack.visible?_innermost hbinding hdepth
  have hentry : entry ∈ model.current := (ScopeStack.named?_eq_some hnamed).1
  obtain ⟨other, hmem, hslot⟩ := (h.popScope.after later).exists_of_inUse hused
  have hpop : model.pop.Bounded := (hbounded.serve .popScope).1
  have hcells : model.pop.cells = model.cells := by
    unfold LexicalScopes.pop
    split <;> rfl
  rcases hpop.mem_after later hmem with hold | hnew
  · -- The scopes around the one that was left have other slots.
    have houter : other ∈ model.outer.flatten := by
      unfold LexicalScopes.pop at hold
      cases hscopes : model.outer with
      | nil =>
        rw [hscopes] at hinside
        exact absurd hinside (Nat.lt_irrefl _)
      | cons scope rest =>
        rw [hscopes] at hold
        exact hold
    obtain ⟨_, _, hacross⟩ := List.pairwise_append.mp h.represents.distinct
    exact hacross entry hentry other houter hslot.symm
  · have hlt := hbounded entry (List.mem_append_left _ hentry)
    rw [hslot, hcells] at hnew
    exact absurd hlt (Nat.not_lt_of_le hnew)

end Refines

/-- The current scope declares a variable of this name and type. -/
def Declares (slots : Slots) (name : String) (ty : Ty) : Prop :=
  ∃ binding : Binding, slots.bindings[name]? = some binding ∧ binding.depth = slots.depth ∧
    binding.ty = ty

theorem redeclared?_eq_none {slots : Slots} {ty : Ty} :
    slots.redeclared? name ty = none ↔ ¬ slots.Declares name ty := by
  unfold redeclared? Declares
  cases slots.bindings[name]? with
  | none => simp
  | some existing => simp

/-- A declaration fails exactly if it needs a slot and the next position does not
fit 16 bits. -/
theorem declare_fails_iff (slots : Slots) (name : String) (ty : Ty) :
    (∃ fault, (slots.declare name ty).1 = .error fault) ↔
      ¬ slots.Declares name ty ∧ 65536 ≤ slots.frameSize := by
  rw [← redeclared?_eq_none]
  constructor
  · rintro ⟨fault, hfault⟩
    obtain ⟨hnone, hfull, _⟩ := declare_eq_error (Prod.ext hfault rfl)
    exact ⟨hnone, hfull⟩
  · rintro ⟨hnone, hfull⟩
    have hnext : (slots.shadow name).nextSlot =
        .error (.operandOverflow .localSlot slots.frameSize) := by
      rw [nextSlot_shadow, nextSlot, if_neg (Nat.not_lt_of_le hfull)]
    refine ⟨.operandOverflow .localSlot slots.frameSize, ?_⟩
    simp only [Slots.declare, hnone, hnext]

/-- The slot of a declaration is the one that the variable has, or the position
behind all others. -/
theorem Arranged.declare {slots : Slots} (h : slots.Arranged) {ty : Ty}
    (hslot : (slots.declare name ty).1 = .ok slot) :
    (slots.Declares name ty ∧ (slots.declare name ty).2 = slots ∧
      ⟨name, ty, slot⟩ ∈ slots.table.toList) ∨
    (¬ slots.Declares name ty ∧ slot.toNat = slots.frameSize ∧
      (slots.declare name ty).2.table = slots.table.push ⟨name, ty, slot⟩) := by
  rcases declare_eq_ok (Prod.ext hslot rfl) with ⟨hredeclared, hsame⟩ | ⟨hnone, hnext, hafter⟩
  · obtain ⟨binding, hbinding, rfl, rfl, hdepth⟩ := redeclared?_eq_some hredeclared
    exact .inl ⟨⟨binding, hbinding, hdepth, rfl⟩, hsame, h.visible name binding hbinding⟩
  · rw [nextSlot_shadow] at hnext
    refine .inr ⟨redeclared?_eq_none.mp hnone, nextSlot_eq_ok hnext, ?_⟩
    have htable := congrArg Slots.table hafter
    rwa [shadow_eq] at htable

/-- After any requests the variables of the table lie back to back in the frame
and fill it, no two share a cell, and whatever is visible or hidden is one of
them. Later requests only add variables behind them, and the slot of a variable
is out of use for ever when its scope has been left. A declaration is answered
with the true position of its variable, and it fails exactly if it needs a new
position and that is 65536 or more. -/
theorem frame_layout (requests : List Request) :
    let slots := empty.after requests
    slots.Arranged ∧
    (slots.table.toList.Pairwise fun entry other => Disjoint entry.cells other.cells) ∧
    (slots.table.toList.map SlotEntry.size).sum = slots.frameSize ∧
    (∀ later, slots.Grows (slots.after later)) ∧
    (∀ (name : String) (binding : Binding), slots.bindings[name]? = some binding →
      binding.depth = slots.depth → 0 < slots.depth →
        ∀ later, ¬ (slots.popScope.after later).InUse binding.slot) ∧
    ∀ name ty,
      ((∃ fault, (slots.declare name ty).1 = .error fault) ↔
        ¬ slots.Declares name ty ∧ 65536 ≤ slots.frameSize) ∧
      ∀ slot, (slots.declare name ty).1 = .ok slot →
        (slots.Declares name ty ∧ (slots.declare name ty).2 = slots ∧
          ⟨name, ty, slot⟩ ∈ slots.table.toList) ∨
        (¬ slots.Declares name ty ∧ slot.toNat = slots.frameSize ∧
          (slots.declare name ty).2.table = slots.table.push ⟨name, ty, slot⟩) := by
  intro slots
  have harranged : slots.Arranged := arranged_empty.after requests
  have hrefines : slots.Refines (LexicalScopes.empty.after requests) :=
    refines_empty.after requests
  have hbounded := LexicalScopes.bounded_after requests
  refine ⟨harranged, harranged.tiles.pairwise_disjoint, ?_, .after slots, ?_, ?_⟩
  · rw [← harranged.tiles.sum_eq, Nat.zero_add]
  · exact fun _ _ hbinding hdepth hinside later =>
      hrefines.not_inUse_of_left hbounded hbinding hdepth hinside later
  · exact fun name ty => ⟨slots.declare_fails_iff name ty, fun _ hslot => harranged.declare hslot⟩

/-- Variables of one, two and no cells, one of them hidden by another. -/
def mixedWidths : List Request :=
  [.declare "x" Ty.int, .pushScope, .declare "x" Ty.long, .declare "u" Ty.void]

/-- The hidden variable keeps its cell. Once its scope has been left, the slot of
the one that hides it stays empty, and the next variable lies behind all others. -/
theorem frame_layout_mixedWidths :
    (empty.after mixedWidths).table.toList =
      [⟨"x", Ty.int, 0⟩, ⟨"x", Ty.long, 1⟩, ⟨"u", Ty.void, 3⟩] ∧
    (empty.after mixedWidths).table.toList.Pairwise
      (fun entry other => Disjoint entry.cells other.cells) ∧
    ¬ ((empty.after mixedWidths).popScope.after [.declare "y" Ty.int]).InUse 1 ∧
    ((empty.after mixedWidths).declare "y" Ty.int).1 = .ok 4 ∧
    (empty.after mixedWidths).frameSize = 4 := by
  obtain ⟨_, hdisjoint, _, _, hleft, hdeclare⟩ := frame_layout mixedWidths
  have hslot : ((empty.after mixedWidths).declare "y" Ty.int).1 = .ok 4 := rfl
  refine ⟨rfl, hdisjoint, hleft "x" ⟨Ty.long, 1, 1⟩ rfl rfl (by decide) _, hslot, ?_⟩
  rcases (hdeclare "y" Ty.int).2 4 hslot with ⟨⟨binding, hbinding, _⟩, _⟩ | ⟨_, hposition, _⟩
  · cases hbinding
  · exact hposition.symm

end Slots

end StackLowering
