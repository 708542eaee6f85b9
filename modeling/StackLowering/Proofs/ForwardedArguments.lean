import StackLowering.Proofs.BridgeFinality
import StackLowering.Proofs.SlotLayout
/-!
What bridges pass on. The bridge of a method is called with the receiver, if there is
one, and the arguments. It finds each where the call puts it, as long as no parameter
of the method has the name of the hidden receiver. A parameter of this name and of the
type of the owner shares the slot of the receiver, so the receiver takes its place; one
of any other type hides the receiver, and the bridge cannot read it. The bridge of
a constructor likewise needs the name of the hidden marker.
-/

namespace StackLowering

theorem exists_of_forall₂_mem {α β : Type} {R : α → β → Prop} {items : List α} {others : List β}
    (h : List.Forall₂ R items others) {item : α} (hitem : item ∈ items) :
    ∃ other ∈ others, R item other := by
  induction h with
  | nil => cases hitem
  | cons hfirst hrest ih =>
    rcases List.mem_cons.mp hitem with rfl | hitem
    · exact ⟨_, List.mem_cons_self, hfirst⟩
    · obtain ⟨other, hother, hrel⟩ := ih hitem
      exact ⟨other, List.mem_cons_of_mem _ hother, hrel⟩

namespace Param

/-- Cells that the parameter takes. -/
def size (param : Param) : Nat := max 1 param.ty.width

/-- The slots of parameters behind `start` cells. -/
def slots (start : Nat) : List Param → List UInt16
  | [] => []
  | param :: rest => UInt16.ofNat start :: slots (start + param.size) rest

end Param

namespace Slots

variable {slots m last : Slots} {name : String} {ty : Ty} {slot : UInt16}

/-- A variable that is new in the scope, by its name or its type, gets the next slot. -/
theorem declare_eq_allocate
    (hnew : ∀ binding ∈ slots.bindings[name]?, binding.depth = slots.depth ∧ binding.ty ≠ ty)
    (h : slots.declare name ty = (.ok slot, last)) :
    slot = UInt16.ofNat slots.frameSize ∧ last = slots.allocate name ty slot := by
  have hshadow : slots.shadow name = slots := by
    unfold shadow
    split
    · rename_i binding hbinding
      exact if_pos (hnew binding hbinding).1
    · rfl
  rcases declare_eq_ok h with ⟨hredeclared, _⟩ | ⟨_, hnext, hlast⟩
  · obtain ⟨binding, hbinding, _, hty, _⟩ := redeclared?_eq_some hredeclared
    exact absurd hty (hnew binding hbinding).2
  · rw [hshadow] at hnext hlast
    refine ⟨?_, hlast⟩
    rw [← nextSlot_eq_ok hnext, UInt16.ofNat_toNat]

theorem declare_again (h : slots.bindings[name]? = some ⟨ty, slot, slots.depth⟩) :
    slots.declare name ty = (.ok slot, slots) := by
  have hredeclared : slots.redeclared? name ty = some slot := by
    simp [redeclared?, h]
  rw [declare, hredeclared]

theorem getElem?_allocate (slots : Slots) (name : String) (ty : Ty) (slot : UInt16)
    (other : String) : (slots.allocate name ty slot).bindings[other]? =
      if name = other then some ⟨ty, slot, slots.depth⟩ else slots.bindings[other]? := by
  rw [allocate, Std.TreeMap.getElem?_insert]
  simp only [compare_eq_iff_eq]

/-- Nothing is declared yet. -/
structure Vacant (slots : Slots) : Prop where
  bindings : ∀ name : String, slots.bindings[name]? = none
  frameSize : slots.frameSize = 0

theorem vacant_reserveAll (names : List String) : (names.foldl reserve empty).Vacant := by
  have hkept (slots : Slots) : (names.foldl reserve slots).bindings = slots.bindings ∧
      (names.foldl reserve slots).frameSize = slots.frameSize := by
    induction names generalizing slots with
    | nil => exact ⟨rfl, rfl⟩
    | cons name rest ih => exact ih _
  refine ⟨fun name => ?_, (hkept empty).2⟩
  rw [(hkept empty).1]
  exact Std.TreeMap.getElem?_emptyc

/-- Parameters are declared one after the other and get these slots. -/
inductive Assigns : Slots → List Param → List UInt16 → Slots → Prop
  | nil {slots : Slots} : Assigns slots [] [] slots
  | cons {slots m last : Slots} {param : Param} {params : List Param} {slot : UInt16}
      {rest : List UInt16} (hslot : slots.declare param.name param.ty = (.ok slot, m))
      (hrest : Assigns m params rest last) :
      Assigns slots (param :: params) (slot :: rest) last

namespace Assigns

variable {params others : List Param} {assigned : List UInt16}

theorem of_append (h : Assigns slots (params ++ others) assigned last) :
    ∃ first second m, assigned = first ++ second ∧ Assigns slots params first m ∧
      Assigns m others second last := by
  induction params generalizing slots assigned with
  | nil => exact ⟨[], assigned, slots, rfl, .nil, h⟩
  | cons param rest ih =>
    cases h with
    | cons hslot hrest =>
      obtain ⟨first, second, m, rfl, hfirst, hsecond⟩ := ih hrest
      exact ⟨_ :: first, second, m, rfl, .cons hslot hfirst, hsecond⟩

/-- Parameters with new names lie back to back behind what is there, and each can be
read under its name and type. -/
theorem fresh (h : Assigns slots params assigned last)
    (hnames : (params.map Param.name).Nodup)
    (hnew : ∀ param ∈ params, slots.bindings[param.name]? = none) :
    assigned = Param.slots slots.frameSize params ∧
      last.frameSize = slots.frameSize + (params.map Param.size).sum ∧
      last.depth = slots.depth ∧
      (∀ name ∉ params.map Param.name, last.bindings[name]? = slots.bindings[name]?) ∧
      List.Forall₂ (fun param slot => last.bindings[param.name]? =
        some ⟨param.ty, slot, slots.depth⟩) params assigned := by
  induction h with
  | nil => exact ⟨rfl, rfl, rfl, fun _ _ => rfl, .nil⟩
  | @cons slots m last param params slot rest hslot hrest ih =>
    obtain ⟨hfirst, hnames⟩ := List.nodup_cons.mp hnames
    obtain ⟨hunbound, hnew⟩ := List.forall_mem_cons.mp hnew
    have hreplaces : ∀ binding ∈ slots.bindings[param.name]?,
        binding.depth = slots.depth ∧ binding.ty ≠ param.ty := by
      intro binding hbinding
      rw [hunbound] at hbinding
      cases hbinding
    obtain ⟨rfl, rfl⟩ := declare_eq_allocate hreplaces hslot
    have hbindings := slots.getElem?_allocate param.name param.ty (UInt16.ofNat slots.frameSize)
    have hrestNew : ∀ other ∈ params, (slots.allocate param.name param.ty
        (UInt16.ofNat slots.frameSize)).bindings[other.name]? = none := by
      intro other hother
      rw [hbindings, if_neg, hnew other hother]
      intro hname
      exact hfirst (hname ▸ List.mem_map_of_mem hother)
    obtain ⟨rfl, hsize, hdepth, hkept, hread⟩ := ih hnames hrestNew
    refine ⟨rfl, ?_, hdepth, fun name hname => ?_, .cons ?_ hread⟩
    · rw [hsize, List.map_cons, List.sum_cons, ← Nat.add_assoc]
      rfl
    · rw [List.map_cons, List.mem_cons, not_or] at hname
      rw [hkept name hname.2, hbindings, if_neg (Ne.symm hname.1)]
    · rw [hkept _ hfirst, hbindings, if_pos rfl]

end Assigns

end Slots

theorem Nest.paramTypes_of_constructor? {nest : Nest} {owner : Ty} {types : List Ty}
    {found : Constructor} (h : nest.constructor? owner types = some found) :
    found.paramTypes = types := by
  obtain ⟨decl, _, hfind⟩ := Option.bind_eq_some_iff.mp h
  simpa using List.find?_some hfind

namespace Bridge

theorem namedParams_self (params : List Param) :
    namedParams (params.map Param.ty) params = params := by
  rw [namedParams, List.zipWith_map_left, List.zipWith_self]
  exact List.map_id _

theorem namedParams_of_method? {nest : Nest} {owner : Ty} {method : Signature} {found : Method}
    (h : nest.method? owner method = some found) :
    namedParams method.params found.params = found.params := by
  rw [← Nest.signature_of_method? h]
  exact namedParams_self found.params

/-- Bridges of methods and constructors are made from what the nest declares. -/
inductive Built (nest : Nest) : Member → BridgeDecl → Prop
  | field {accessor name : String} {owner ty : Ty} {isStatic : Bool} :
      Built nest (.field owner name) (.method (fieldAccessor accessor owner name ty isStatic))
  | method {accessor : String} {owner : Ty} {method : Signature} {found : Method}
      (hfound : nest.method? owner method = some found) :
      Built nest (.method owner method)
        (.method (forwarder accessor owner method found.params found.modifiers.isStatic))
  | constructor {owner : Ty} {types : List Ty} {marker : String} {found : Constructor}
      (hfound : nest.constructor? owner types = some found) :
      Built nest (.constructor owner types)
        (.constructor (delegate owner types found.params (.object marker)))

end Bridge

namespace Bridges

variable {nest : Nest} {bridges bridges' : Bridges} {member : Member} {requester : Ty}
  {access use : Tree} {decl : BridgeDecl}

def AllBuilt (nest : Nest) (bridges : Bridges) : Prop :=
  ∀ member decl, (member, decl) ∈ bridges.declarations → Bridge.Built nest member decl

theorem AllBuilt.addBridge (h : bridges.AllBuilt nest) (hdecl : Bridge.Built nest member decl) :
    (bridges.addBridge member requester decl).AllBuilt nest := by
  intro member' decl' hmem
  rw [declarations_addBridge] at hmem
  rcases List.mem_append.mp hmem with hmem | hmem
  · exact h member' decl' hmem
  · obtain ⟨rfl, rfl⟩ := Prod.mk.inj (List.mem_singleton.mp hmem)
    exact hdecl

theorem AllBuilt.addRequester (h : bridges.AllBuilt nest) :
    (bridges.addRequester member requester).AllBuilt nest := by
  rw [AllBuilt, declarations_addRequester]
  exact h

theorem AllBuilt.accessor (h : bridges.AllBuilt nest) {build : String → Method} {method : Method}
    (hbuild : ∀ name, Bridge.Built nest member (.method (build name)))
    (haccessor : bridges.accessor member requester build = some (method, bridges')) :
    bridges'.AllBuilt nest := by
  unfold Bridges.accessor at haccessor
  split at haccessor
  next =>
      cases haccessor
      exact h.addRequester
  next => cases haccessor
  next =>
      cases haccessor
      exact h.addBridge (hbuild _)

theorem AllBuilt.constructor (h : bridges.AllBuilt nest) {owner : Ty} {types : List Ty}
    {found decl : Constructor} (hfound : nest.constructor? owner types = some found)
    (hconstructor : bridges.constructor nest requester owner types found.params =
      some (decl, bridges')) : bridges'.AllBuilt nest := by
  unfold Bridges.constructor at hconstructor
  dsimp only at hconstructor
  split at hconstructor
  next =>
      cases hconstructor
      exact h.addRequester
  next => cases hconstructor
  next =>
      cases hconstructor
      exact AllBuilt.addBridge h (.constructor hfound)

theorem AllBuilt.access? (h : bridges.AllBuilt nest)
    (haccess : bridges.access? nest requester access = some (use, bridges')) :
    bridges'.AllBuilt nest := by
  cases access with
  | readField owner name ty receiver =>
    obtain ⟨field, _, _, _, _, haccessor, huse⟩ := by
      simpa only [Bridges.access?, Option.bind_eq_bind, Option.bind_eq_some_iff] using haccess
    cases huse
    exact h.accessor (fun _ => .field) haccessor
  | invoke kind owner method receiver args =>
    obtain ⟨found, hfound, _, _, _, haccessor, huse⟩ := by
      simpa only [Bridges.access?, Option.bind_eq_bind, Option.bind_eq_some_iff] using haccess
    cases huse
    exact h.accessor (fun _ => .method hfound) haccessor
  | create ty params args =>
    obtain ⟨found, hfound, _, _, _, hconstructor, huse⟩ := by
      simpa only [Bridges.access?, Option.bind_eq_bind, Option.bind_eq_some_iff] using haccess
    cases huse
    exact h.constructor hfound hconstructor
  | _ => cases haccess

theorem AllBuilt.after (h : bridges.AllBuilt nest) (calls : List Call) :
    (bridges.after nest calls).AllBuilt nest := by
  induction calls generalizing bridges with
  | nil => exact h
  | cons call rest ih =>
    refine ih ?_
    cases haccess : bridges.access? nest call.requester call.access with
    | none =>
      rw [serve_eq_none haccess]
      exact h
    | some answer =>
      rw [serve_eq_some haccess]
      exact h.access? haccess

theorem Sound.allBuilt (h : bridges.Sound nest) : bridges.AllBuilt nest := by
  obtain ⟨calls, rfl⟩ := h
  exact AllBuilt.after (fun _ _ hmem => absurd hmem List.not_mem_nil) calls

end Bridges

namespace Param

/-- Only one of the parameters has the name of the receiver. -/
theorem nodup_split {before after : List Param} {receiver param : Param}
    (h : ((before ++ param :: after).map name).Nodup) (hname : receiver.name = param.name) :
    ((receiver :: before).map name).Nodup ∧ ((param :: after).map name).Nodup ∧
      ((receiver :: before).map name).Disjoint (after.map name) := by
  rw [List.map_append, List.map_cons, List.nodup_middle, List.nodup_cons, List.mem_append,
    not_or] at h
  obtain ⟨⟨hbefore, hafter⟩, hrest⟩ := h
  obtain ⟨hnodup, hnodup', hdisjoint⟩ := List.nodup_append'.mp hrest
  rw [List.map_cons, List.map_cons, hname]
  exact ⟨List.nodup_cons.mpr ⟨hbefore, hnodup⟩, List.nodup_cons.mpr ⟨hafter, hnodup'⟩,
    List.disjoint_cons_left.mpr ⟨hafter, hdisjoint⟩⟩

end Param

namespace Slots

variable {slots last : Slots} {params : List Param} {assigned : List UInt16}

theorem require_of_binding {name : String} {binding : Binding}
    (h : slots.bindings[name]? = some binding) : slots.require name binding.ty = .ok binding.slot :=
  require_eq_ok.mpr ⟨binding, h, rfl, rfl⟩

theorem Vacant.places (h : slots.Vacant) (hassigns : slots.Assigns params assigned last)
    (hnames : (params.map Param.name).Nodup) :
    List.Forall₂ (fun param slot => last.require param.name param.ty = .ok slot) params
      (Param.slots 0 params) := by
  obtain ⟨rfl, _, _, _, hbindings⟩ := hassigns.fresh hnames fun _ _ => h.bindings _
  rw [h.frameSize] at hbindings
  exact hbindings.imp fun _ _ hbinding => require_of_binding hbinding

theorem require_of_other_type {name : String} {ty : Ty} {binding : Binding}
    (h : slots.bindings[name]? = some binding) (hty : binding.ty ≠ ty) :
    slots.require name ty = .error (.undeclaredVariable name ty none) := by
  simp [require, h, hty]

section Repeated

variable {before after : List Param} {earlier param : Param} (hvacant : slots.Vacant)
  (hassigns : slots.Assigns (before ++ param :: after) assigned last)
  (hbefore : (before.map Param.name).Nodup) (hafter : ((param :: after).map Param.name).Nodup)
  (hnew : (before.map Param.name).Disjoint (after.map Param.name)) (hearlier : earlier ∈ before)
  (hname : earlier.name = param.name)

include hvacant hassigns hbefore

/-- The slots when all parameters before `param` are declared. -/
theorem exists_declared : ∃ (m m' : Slots) (slot : UInt16) (rest : List UInt16),
    m.frameSize = (before.map Param.size).sum ∧
    (∀ name ∉ before.map Param.name, m.bindings[name]? = none) ∧
    List.Forall₂ (fun param slot => m.bindings[param.name]? = some ⟨param.ty, slot, m.depth⟩)
      before (Param.slots 0 before) ∧
    m.declare param.name param.ty = (.ok slot, m') ∧ m'.Assigns after rest last := by
  obtain ⟨first, second, m, _, hfirst, hsecond⟩ := hassigns.of_append
  obtain ⟨rfl, hsize, hdepth, hkept, hbindings⟩ := hfirst.fresh hbefore fun _ _ =>
    hvacant.bindings _
  rw [hvacant.frameSize] at hsize hbindings
  rw [← hdepth] at hbindings
  cases hsecond with
  | @cons _ m' _ _ _ slot rest hslot hrest =>
    refine ⟨m, m', slot, rest, hsize.trans (Nat.zero_add _), fun name hname => ?_, hbindings,
      hslot, hrest⟩
    rw [hkept name hname, hvacant.bindings]

include hafter hnew

/-- A parameter with the name and type of the first one is found where that one is. -/
theorem Vacant.shares (hfirst : before.head? = some param) :
    List.Forall₂ (fun param slot => last.require param.name param.ty = .ok slot)
      (before ++ param :: after) (Param.slots 0 before ++ 0 ::
        Param.slots (before.map Param.size).sum after) := by
  obtain ⟨m, m', _, rest, hsize, hunbound, hbindings, hslot, hrest⟩ :=
    exists_declared hvacant hassigns hbefore
  have hbound : m.bindings[param.name]? = some ⟨param.ty, 0, m.depth⟩ := by
    obtain ⟨rest, rfl⟩ := List.head?_eq_some_iff.mp hfirst
    cases hbindings with
    | cons hbound _ => exact hbound
  obtain ⟨_, rfl⟩ := Prod.mk.inj ((declare_again hbound).symm.trans hslot)
  obtain ⟨rfl, _, _, hkept, hread⟩ := hrest.fresh (List.nodup_cons.mp hafter).2 fun other hother =>
    hunbound _ fun hrepeated => hnew hrepeated (List.mem_map_of_mem hother)
  rw [hsize] at hread
  have hstays : ∀ other ∈ before, other.name ∉ after.map Param.name := fun other hother =>
    hnew (List.mem_map_of_mem hother)
  have hreadBefore := ((List.forall₂_and_left _ _).mpr ⟨hstays, hbindings⟩).imp
    fun other slot hother => require_of_binding ((hkept other.name hother.1).trans hother.2)
  have hreadAfter := hread.imp fun _ _ hbinding => require_of_binding hbinding
  have hreadParam := require_of_binding ((hkept _ (List.nodup_cons.mp hafter).1).trans hbound)
  exact List.rel_append hreadBefore (.cons hreadParam hreadAfter)

include hearlier hname

/-- A parameter with the name of an earlier one of another type hides it. -/
theorem Vacant.hides (hty : earlier.ty ≠ param.ty) :
    last.require earlier.name earlier.ty =
      .error (.undeclaredVariable earlier.name earlier.ty none) := by
  obtain ⟨m, m', _, rest, hsize, hunbound, hbindings, hslot, hrest⟩ :=
    exists_declared hvacant hassigns hbefore
  obtain ⟨slot, _, hbound⟩ := exists_of_forall₂_mem hbindings hearlier
  rw [hname] at hbound
  have hreplaces : ∀ binding ∈ m.bindings[param.name]?,
      binding.depth = m.depth ∧ binding.ty ≠ param.ty := by
    intro binding hbinding
    obtain rfl := Option.some.inj (hbound.symm.trans hbinding)
    exact ⟨rfl, hty⟩
  obtain ⟨rfl, rfl⟩ := declare_eq_allocate hreplaces hslot
  obtain ⟨hfirst, hafter⟩ := List.nodup_cons.mp hafter
  have hlookup := m.getElem?_allocate param.name param.ty (UInt16.ofNat m.frameSize)
  have hunbound' : ∀ other ∈ after, (m.allocate param.name param.ty
      (UInt16.ofNat m.frameSize)).bindings[other.name]? = none := by
    intro other hother
    rw [hlookup, if_neg]
    · exact hunbound _ fun hrepeated => hnew hrepeated (List.mem_map_of_mem hother)
    · intro hsame
      exact hfirst (hsame ▸ List.mem_map_of_mem hother)
  obtain ⟨_, _, _, hkept, _⟩ := hrest.fresh hafter hunbound'
  have hhidden := (hkept _ hfirst).trans (hlookup param.name)
  rw [if_pos rfl] at hhidden
  rw [hname]
  exact require_of_other_type hhidden hty.symm

end Repeated

end Slots

/-- The slots when a routine starts. Only the names in its body are reserved. -/
def RoutineDecl.startSlots (decl : RoutineDecl) : Slots :=
  decl.body.variableNames.foldl Slots.reserve .empty

/-- With its parameters declared, the routine finds these ones in these slots. -/
def RoutineDecl.Finds (decl : RoutineDecl) (params : List Param) (found : List UInt16) : Prop :=
  ∀ {last : Slots} {assigned : List UInt16}, decl.startSlots.Assigns decl.params assigned last →
    List.Forall₂ (fun param slot => last.require param.name param.ty = .ok slot) params found

/-- With its parameters declared, the routine does not find this one. -/
def RoutineDecl.Misses (decl : RoutineDecl) (param : Param) : Prop :=
  ∀ {last : Slots} {assigned : List UInt16}, decl.startSlots.Assigns decl.params assigned last →
    last.require param.name param.ty = .error (.undeclaredVariable param.name param.ty none)

theorem RoutineDecl.vacant_startSlots (decl : RoutineDecl) : decl.startSlots.Vacant :=
  Slots.vacant_reserveAll decl.body.variableNames

namespace Bridge

/-- What a bridge does: call the member and return what it returns. -/
def forwardBody (result : Ty) (call : Tree) : Tree :=
  if result.isVoid then .block [call, .ret none] else .ret (some call)

/-- The routine of a bridge that forwards to a method. -/
def forwarderRoutine (accessor : String) (owner : Ty) (method : Signature) (params : List Param)
    (isStatic : Bool) : RoutineDecl where
  owner := owner
  name := accessor
  params := receiverParams owner isStatic ++ params
  result := method.result
  isStatic := true
  body := forwardBody method.result (.invoke (if isStatic then .static else .special) owner method
    (receiverTree? owner isStatic) (params.map readParam))

/-- The routine of a bridge that delegates to a constructor. -/
def delegateRoutine (owner : Ty) (params : List Param) (marker : Ty) : RoutineDecl where
  owner := owner
  name := Signature.constructorName
  params := params ++ [⟨markerName, marker⟩]
  result := Ty.void
  isStatic := false
  body := forwardBody Ty.void (.invoke .special owner
    ⟨Signature.constructorName, Ty.void, params.map Param.ty⟩ (some .self) (params.map readParam))

theorem ofMethod?_forwarder {nest : Nest} {accessor : String} {owner : Ty} {method : Signature}
    {found : Method} (hfound : nest.method? owner method = some found) (isStatic : Bool) :
    RoutineDecl.ofMethod? owner (forwarder accessor owner method found.params isStatic) =
      some (forwarderRoutine accessor owner method found.params isStatic) := by
  simp only [RoutineDecl.ofMethod?, forwarder, namedParams_of_method? hfound]
  rfl

theorem ofConstructor?_delegate {nest : Nest} {owner marker : Ty} {types : List Ty}
    {found : Constructor} (hfound : nest.constructor? owner types = some found) :
    RoutineDecl.ofConstructor? owner (delegate owner types found.params marker) =
      some (delegateRoutine owner found.params marker) := by
  obtain rfl := Nest.paramTypes_of_constructor? hfound
  simp only [RoutineDecl.ofConstructor?, delegate, Constructor.paramTypes, namedParams_self]
  rfl

/-- Parameters with different names are found where they are passed. -/
theorem finds_params {decl : RoutineDecl} (hnames : (decl.params.map Param.name).Nodup) :
    decl.Finds decl.params (Param.slots 0 decl.params) :=
  fun hassigns => decl.vacant_startSlots.places hassigns hnames

section Collision

variable {owner ty : Ty} {method : Signature} {before after : List Param}
  (hnames : ((before ++ ⟨receiverName, ty⟩ :: after).map Param.name).Nodup)

include hnames

/-- A parameter with the name of the receiver and the type of the owner is found where the
receiver is, and those behind it where it should be. -/
theorem forwarder_shares (hty : ty = owner) (accessor : String) :
    (forwarderRoutine accessor owner method (before ++ ⟨receiverName, ty⟩ :: after) false).Finds
      (⟨receiverName, owner⟩ :: before ++ ⟨receiverName, ty⟩ :: after)
      (Param.slots 0 (⟨receiverName, owner⟩ :: before) ++ 0 ::
        Param.slots ((⟨receiverName, owner⟩ :: before).map Param.size).sum after) := by
  subst hty
  obtain ⟨hbefore, hafter, hnew⟩ := @Param.nodup_split _ _ ⟨receiverName, ty⟩ _ hnames rfl
  intro last assigned hassigns
  exact (RoutineDecl.vacant_startSlots _).shares hassigns hbefore hafter hnew rfl

/-- A parameter with the name of the receiver and another type hides it. -/
theorem forwarder_hides (hty : ty ≠ owner) (accessor : String) :
    (forwarderRoutine accessor owner method (before ++ ⟨receiverName, ty⟩ :: after) false).Misses
      ⟨receiverName, owner⟩ := by
  obtain ⟨hbefore, hafter, hnew⟩ := @Param.nodup_split _ _ ⟨receiverName, owner⟩ _ hnames rfl
  intro last assigned hassigns
  have hdeclared : Slots.Assigns _ (⟨receiverName, owner⟩ :: before ++ ⟨receiverName, ty⟩ :: after)
      assigned last := hassigns
  exact (RoutineDecl.vacant_startSlots _).hides hdeclared hbefore hafter hnew List.mem_cons_self rfl
    hty.symm

end Collision

/-- A parameter with the name of the marker is hidden by it. -/
theorem delegate_hides {owner ty : Ty} {marker : String} {before after : List Param}
    (hnames : ((before ++ ⟨markerName, ty⟩ :: after).map Param.name).Nodup)
    (hty : ty ≠ .object marker) :
    (delegateRoutine owner (before ++ ⟨markerName, ty⟩ :: after) (.object marker)).Misses
      ⟨markerName, ty⟩ :=
  fun hassigns => (RoutineDecl.vacant_startSlots _).hides hassigns hnames (List.nodup_singleton _)
    (List.disjoint_nil_right _) (List.mem_append_right _ List.mem_cons_self) rfl hty

end Bridge

namespace Bridges

variable {env : Env} {bridges bridges' : Bridges} {requester owner : Ty} {kind : InvokeKind}
  {method : Signature} {receiver : Option Tree} {types : List Ty} {args : List Tree} {use : Tree}

/-- The registry has a bridge of the member with this routine. -/
def Implements (bridges : Bridges) (member : Member) (decl : RoutineDecl) : Prop :=
  ∃ bridge ∈ bridges.entries, bridge.member = member ∧ bridge.routine? = some decl

theorem implements_of_declarations {member : Member} {decl : BridgeDecl}
    (h : (member, decl) ∈ bridges.declarations) :
    ∃ bridge ∈ bridges.entries, bridge.member = member ∧ bridge.decl = decl := by
  obtain ⟨bridge, hbridge, hsame⟩ := List.mem_map.mp h
  exact ⟨bridge, hbridge, Prod.mk.inj hsame⟩

section Methods

variable {found : Method} (hsound : bridges.Sound env.nest)
  (haccess : bridges.access? env.nest requester (.invoke kind owner method receiver args) =
    some (use, bridges'))
  (hfound : env.nest.method? owner method = some found)

include hsound haccess hfound

/-- A call that needs a bridge is turned into a call of the bridge, with the receiver
in front of the arguments. -/
theorem Sound.exists_forwarder : ∃ accessor,
    let decl := Bridge.forwarderRoutine accessor owner method found.params
      found.modifiers.isStatic
    bridges'.Implements (.method owner method) decl ∧
      use = .invoke .static owner ⟨decl.name, decl.result, decl.params.map Param.ty⟩ none
        (if found.modifiers.isStatic then args else receiver.getD .self :: args) := by
  obtain ⟨member, decl, hmember, huse, hanswers⟩ := answers_of_access? haccess
  cases hmember
  have hbuilt := (hsound.access? haccess).allBuilt _ _ hanswers.mem
  cases hbuilt with
  | @method accessor _ _ found' hfound' =>
    obtain rfl := Option.some.inj (hfound.symm.trans hfound')
    obtain ⟨bridge, hbridge, hmember, hdecl⟩ := implements_of_declarations hanswers.mem
    have hroutine := @Bridge.ofMethod?_forwarder env.nest accessor owner method found hfound
      found.modifiers.isStatic
    refine ⟨accessor, ⟨bridge, hbridge, hmember, ?_⟩, ?_⟩
    · rw [Bridge.routine?, hdecl, Bridge.owner, hmember]
      exact hroutine
    · simp only [Nest.through?, hfound] at huse
      rw [← Option.some.inj huse, Bridge.forwarder, Bridge.namedParams_of_method? hfound]
      rfl

/-- Where no parameter has the name of the hidden receiver, the bridge finds the receiver
and the arguments in the slots in which they are passed. -/
theorem Sound.method_forwarded (hnames : ((Bridge.receiverParams owner found.modifiers.isStatic ++
      found.params).map Param.name).Nodup) : ∃ decl,
    bridges'.Implements (.method owner method) decl ∧
      decl.params = Bridge.receiverParams owner found.modifiers.isStatic ++ found.params ∧
      use = .invoke .static owner ⟨decl.name, decl.result, decl.params.map Param.ty⟩ none
        (if found.modifiers.isStatic then args else receiver.getD .self :: args) ∧
      decl.Finds decl.params (Param.slots 0 decl.params) := by
  obtain ⟨accessor, himplements, huse⟩ := hsound.exists_forwarder haccess hfound
  exact ⟨_, himplements, rfl, huse, Bridge.finds_params hnames⟩

/-- A parameter of an instance method with the name of the hidden receiver. If it has
the type of the owner, it is taken for the receiver; if not, the receiver is not found. -/
theorem Sound.method_collides {ty : Ty} {before after : List Param}
    (hinstance : found.modifiers.isStatic = false)
    (hsplit : found.params = before ++ ⟨Bridge.receiverName, ty⟩ :: after)
    (hnames : (found.params.map Param.name).Nodup) : ∃ decl,
    bridges'.Implements (.method owner method) decl ∧
      use = .invoke .static owner ⟨decl.name, decl.result, decl.params.map Param.ty⟩ none
        (receiver.getD .self :: args) ∧
      decl.params = ⟨Bridge.receiverName, owner⟩ :: found.params ∧
      (ty = owner → decl.Finds decl.params
        (Param.slots 0 (⟨Bridge.receiverName, owner⟩ :: before) ++ 0 ::
          Param.slots ((⟨Bridge.receiverName, owner⟩ :: before).map Param.size).sum after)) ∧
      (ty ≠ owner → decl.Misses ⟨Bridge.receiverName, owner⟩) := by
  obtain ⟨accessor, himplements, huse⟩ := hsound.exists_forwarder haccess hfound
  rw [hinstance] at himplements huse
  rw [hsplit] at himplements huse hnames ⊢
  exact ⟨_, himplements, huse, rfl, fun hty => Bridge.forwarder_shares hnames hty accessor,
    fun hty => Bridge.forwarder_hides hnames hty accessor⟩

end Methods

section Constructors

variable {found : Constructor} (hsound : bridges.Sound env.nest)
  (haccess : bridges.access? env.nest requester (.create owner types args) = some (use, bridges'))
  (hfound : env.nest.constructor? owner types = some found)

include hsound haccess hfound

/-- A creation that needs a bridge is turned into one with a null for the marker. -/
theorem Sound.exists_delegate : ∃ marker,
    bridges'.Implements (.constructor owner types)
        (Bridge.delegateRoutine owner found.params (.object marker)) ∧
      use = .create owner (types ++ [.object marker]) (args ++ [.null]) := by
  obtain ⟨member, decl, hmember, huse, hanswers⟩ := answers_of_access? haccess
  cases hmember
  have hbuilt := (hsound.access? haccess).allBuilt _ _ hanswers.mem
  cases hbuilt with
  | @constructor _ _ marker found' hfound' =>
    obtain rfl := Option.some.inj (hfound.symm.trans hfound')
    obtain ⟨bridge, hbridge, hmember, hdecl⟩ := implements_of_declarations hanswers.mem
    have hroutine := @Bridge.ofConstructor?_delegate env.nest owner (.object marker) types found
      hfound
    refine ⟨marker, ⟨bridge, hbridge, hmember, ?_⟩, ?_⟩
    · rw [Bridge.routine?, hdecl, Bridge.owner, hmember]
      exact hroutine
    · obtain rfl := Nest.paramTypes_of_constructor? hfound
      rw [← Option.some.inj huse]
      simp [Bridge.delegate, Constructor.paramTypes, Bridge.namedParams_self]

/-- Where no parameter has the name of the hidden marker, the bridge finds all arguments
in the slots in which they are passed. -/
theorem Sound.constructor_forwarded (hnames : (found.params.map Param.name).Nodup)
    (hmarker : Bridge.markerName ∉ found.params.map Param.name) : ∃ marker decl,
    bridges'.Implements (.constructor owner types) decl ∧
      decl.params = found.params ++ [⟨Bridge.markerName, .object marker⟩] ∧
      use = .create owner (types ++ [.object marker]) (args ++ [.null]) ∧
      decl.Finds decl.params (Param.slots 0 decl.params) := by
  obtain ⟨marker, himplements, huse⟩ := hsound.exists_delegate haccess hfound
  refine ⟨marker, _, himplements, rfl, huse, Bridge.finds_params ?_⟩
  rw [Bridge.delegateRoutine, List.map_append]
  exact hnames.append (List.nodup_singleton _) (List.disjoint_singleton.mpr hmarker)

/-- A parameter of a constructor with the name of the hidden marker. If it has not
also the type of the marker, it is not found. -/
theorem Sound.constructor_collides {ty : Ty} {before after : List Param}
    (hsplit : found.params = before ++ ⟨Bridge.markerName, ty⟩ :: after)
    (hnames : (found.params.map Param.name).Nodup) : ∃ marker decl,
    bridges'.Implements (.constructor owner types) decl ∧
      use = .create owner (types ++ [.object marker]) (args ++ [.null]) ∧
      (ty ≠ .object marker → decl.Misses ⟨Bridge.markerName, ty⟩) := by
  obtain ⟨marker, himplements, huse⟩ := hsound.exists_delegate haccess hfound
  rw [hsplit] at himplements hnames
  exact ⟨marker, _, himplements, huse, Bridge.delegate_hides hnames⟩

end Constructors

/-- A private method whose parameter has the name of the hidden receiver. -/
def joiningMethod : Method :=
  ⟨"join", .privateFlag, Ty.int, [⟨"$receiver", .object "Outer$Holder"⟩],
    some (.ret (some (.int 1)))⟩

/-- A type that declares the method, and another type beside it. -/
def joiningNest : Nest :=
  let outer := Ty.object "Outer"
  ⟨[.bare outer .classType .publicFlag,
    { TypeDecl.bare (.object "Outer$Left") .classType .publicFlag with outer := some outer },
    { TypeDecl.bare (.object "Outer$Holder") .classType .publicFlag with
      outer := some outer
      methods := [joiningMethod] }], Nest.libraryTypes⟩

/-- The bridge of the method is passed two objects and finds both where the first one is. -/
theorem joiningMethod_confused (first second : Tree) : ∃ use bridges' decl,
    let holder := Ty.object "Outer$Holder"
    Bridges.empty.access? joiningNest (.object "Outer$Left")
        (.invoke .virtual holder joiningMethod.signature (some first) [second]) =
          some (use, bridges') ∧
      bridges'.Implements (.method holder joiningMethod.signature) decl ∧
      use = .invoke .static holder ⟨decl.name, decl.result, decl.params.map Param.ty⟩ none
        [first, second] ∧
      decl.params = ⟨Bridge.receiverName, holder⟩ :: joiningMethod.params ∧
      decl.Finds decl.params [0, 0] := by
  have hsound := Sound.empty joiningNest
  obtain ⟨calls, hserves⟩ := hsound.serves
  have htrespasses : joiningNest.trespasses (.object "Outer$Left")
      (.invoke .virtual (.object "Outer$Holder") joiningMethod.signature (some first) [second]) =
        true := by
    rw [Nest.trespasses]
    decide +kernel
  obtain ⟨use, bridges', haccess, _⟩ := hserves.fit.access? htrespasses
  obtain ⟨decl, himplements, huse, hparams, hshares, _⟩ := @Sound.method_collides
    ⟨joiningNest, {}⟩ _ _ _ _ _ _ _ _ _ joiningMethod hsound haccess rfl (.object "Outer$Holder") []
    [] rfl rfl (List.nodup_singleton _)
  exact ⟨use, bridges', decl, haccess, himplements, huse, hparams, hshares rfl⟩

end Bridges

end StackLowering
