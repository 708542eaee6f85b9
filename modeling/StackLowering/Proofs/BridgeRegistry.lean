import StackLowering.Proofs.PrivateAccess
import StackLowering.Proofs.UniqueNames
/-!
The registry of bridges, over all sequences of accesses. Each private member
that is reached from another type has one bridge, shared by all who use it and
never replaced. Bridge methods are numbered for each owner, and each bridge
constructor has a marker type of its own that nothing else declares. An access
is turned into the same use of its bridge whenever it is repeated.
-/

namespace StackLowering

/-- The member that an access reaches. -/
def Tree.member? : Tree → Option Member
  | .readField owner name _ _ => some (.field owner name)
  | .invoke _ owner method _ _ => some (.method owner method)
  | .create ty params _ => some (.constructor ty params)
  | _ => none

/-- The use of a bridge in place of an access to the member it bridges. -/
def Nest.through? (nest : Nest) : Tree → BridgeDecl → Option Tree
  | .readField owner name _ receiver, .method decl => do
    let field ← nest.field? owner name
    let args := if field.modifiers.isStatic then [] else [receiver.getD .self]
    return .invoke .static owner decl.signature none args
  | .invoke _ owner method receiver args, .method decl => do
    let found ← nest.method? owner method
    let args := if found.modifiers.isStatic then args else receiver.getD .self :: args
    return .invoke .static owner decl.signature none args
  | .create ty _ args, .constructor decl =>
    some (.create ty decl.paramTypes (args ++ [.null]))
  | _, _ => none

/-- A member that another type may not reach belongs to a type of the nest. -/
theorem Nest.contains_of_trespasses {nest : Nest} {requester : Ty} {access : Tree} {member : Member}
    (h : nest.trespasses requester access = true) (hmember : access.member? = some member) :
    nest.contains member.owner = true := by
  have hcontains {owner : Ty} {modifiers : Modifiers}
      (hcloses : nest.closes requester owner modifiers = true) : nest.contains owner = true := by
    simp only [closes, Bool.and_eq_true] at hcloses
    exact hcloses.1.1.2
  cases access with
  | readField owner name ty receiver =>
    cases hmember
    obtain ⟨_, _, hcloses⟩ := (Option.any_eq_true _ _).mp h
    exact hcontains hcloses
  | invoke kind owner method receiver args =>
    cases hmember
    obtain ⟨_, _, hcloses⟩ := (Option.any_eq_true _ _).mp h
    exact hcontains hcloses
  | create ty params args =>
    cases hmember
    obtain ⟨_, _, hcloses⟩ := (Option.any_eq_true _ _).mp h
    exact hcontains hcloses
  | _ => cases hmember

/-- A declaration of the kind that bridges a member. -/
inductive BridgeDecl.Fits : Member → BridgeDecl → Prop
  | field (accessor : String) (owner : Ty) (name : String) (ty : Ty) (isStatic : Bool) :
      Fits (.field owner name) (.method (Bridge.fieldAccessor accessor owner name ty isStatic))
  | method (accessor : String) (owner : Ty) (method : Signature) (declared : List Param)
      (isStatic : Bool) :
      Fits (.method owner method)
        (.method (Bridge.forwarder accessor owner method declared isStatic))
  | constructor (owner : Ty) (types : List Ty) (declared : List Param) (marker : Ty) :
      Fits (.constructor owner types) (.constructor (Bridge.delegate owner types declared marker))

namespace BridgeDecl

def method? : BridgeDecl → Option Method
  | method decl => some decl
  | constructor _ => none

def constructor? : BridgeDecl → Option Constructor
  | method _ => none
  | constructor decl => some decl

end BridgeDecl

namespace Bridge

theorem addRequester_member (bridge : Bridge) (requester : Ty) :
    (bridge.addRequester requester).member = bridge.member := by
  unfold addRequester
  split_ifs <;> rfl

theorem addRequester_requesters (bridge : Bridge) (requester : Ty) :
    (bridge.addRequester requester).requesters =
      if requester ∈ bridge.requesters then bridge.requesters
      else bridge.requesters ++ [requester] := by
  unfold addRequester
  simp only [List.contains_iff_mem, apply_ite Bridge.requesters]

theorem addRequester_decl (bridge : Bridge) (requester : Ty) :
    (bridge.addRequester requester).decl = bridge.decl := by
  unfold addRequester
  split_ifs <;> rfl

end Bridge

variable {bridge : Bridge}

namespace Bridges

variable {nest : Nest} {bridges bridges' : Bridges} {member : Member} {requester : Ty}
  {access use : Tree}

/-- What a registry says about members, apart from who uses them. -/
def declarations (bridges : Bridges) : List (Member × BridgeDecl) :=
  bridges.entries.map fun bridge => (bridge.member, bridge.decl)

/-- The bridge methods of a type, in the order they were declared. -/
def methodsOf (bridges : Bridges) (owner : Ty) : List Method :=
  bridges.declarations.filterMap fun (member, decl) =>
    if member.owner = owner then decl.method? else none

/-- The bridge constructors of all types, in the order they were declared. -/
def constructors (bridges : Bridges) : List Constructor :=
  bridges.declarations.filterMap fun (_, decl) => decl.constructor?

/-- How an access to `member` is answered: by the bridge there is, or by a new
one, which is declared with a new name or a new marker. -/
inductive Answers (nest : Nest) (bridges : Bridges) (requester : Ty) :
    Member → BridgeDecl → Bridges → Prop
  | shared {member : Member} {bridge : Bridge} (hfind : bridges.find? member = some bridge) :
      Answers nest bridges requester member bridge.decl (bridges.addRequester member requester)
  | newMethod {member : Member} {decl : Method} (hfind : bridges.find? member = none)
      (hfits : BridgeDecl.Fits member (.method decl))
      (hname : decl.name = bridges.nextAccessor member.owner) :
      Answers nest bridges requester member (.method decl)
        (bridges.addBridge member requester (.method decl))
  | newConstructor {owner : Ty} {types : List Ty} {declared : List Param} {decl : Constructor}
      (hfind : bridges.find? (.constructor owner types) = none)
      (hdecl : decl = Bridge.delegate owner types declared (bridges.newMarker nest owner).1) :
      Answers nest bridges requester (.constructor owner types) (.constructor decl)
        ((bridges.newMarker nest owner).2.addBridge (.constructor owner types) requester
          (.constructor decl))

theorem answers_of_accessor {build : String → Method} {decl : Method}
    (hfits : ∀ name, BridgeDecl.Fits member (.method (build name)))
    (hname : ∀ name, (build name).name = name)
    (h : bridges.accessor member requester build = some (decl, bridges')) :
    Answers nest bridges requester member (.method decl) bridges' := by
  unfold accessor at h
  split at h
  next hfind =>
      cases h
      exact .shared hfind
  next => cases h
  next hfind =>
      cases h
      exact .newMethod hfind (hfits _) (hname _)

theorem answers_of_constructor {owner : Ty} {types : List Ty} {declared : List Param}
    {decl : Constructor}
    (h : bridges.constructor nest requester owner types declared = some (decl, bridges')) :
    Answers nest bridges requester (.constructor owner types) (.constructor decl) bridges' := by
  unfold constructor at h
  dsimp only at h
  split at h
  next hfind =>
      cases h
      exact .shared hfind
  next => cases h
  next hfind =>
      cases h
      exact .newConstructor hfind rfl

/-- Everything an access can do to the registry. -/
theorem answers_of_access? (h : bridges.access? nest requester access = some (use, bridges')) :
    ∃ member decl, access.member? = some member ∧ nest.through? access decl = some use ∧
      Answers nest bridges requester member decl bridges' := by
  cases access with
  | readField owner name ty receiver =>
    obtain ⟨field, hfield, _, hguard, ⟨decl, _⟩, haccessor, huse⟩ := by
      simpa only [access?, Option.bind_eq_bind, Option.bind_eq_some_iff] using h
    cases huse
    refine ⟨_, _, rfl, ?_, answers_of_accessor (fun name => ?_) (fun name => rfl) haccessor⟩
    · simp [Nest.through?, hfield]
    · exact .field ..
  | invoke kind owner method receiver args =>
    obtain ⟨found, hfound, _, hguard, ⟨decl, _⟩, haccessor, huse⟩ := by
      simpa only [access?, Option.bind_eq_bind, Option.bind_eq_some_iff] using h
    cases huse
    refine ⟨_, _, rfl, ?_, answers_of_accessor (fun name => ?_) (fun name => rfl) haccessor⟩
    · simp [Nest.through?, hfound]
    · exact .method ..
  | create ty params args =>
    obtain ⟨found, hfound, _, hguard, ⟨decl, _⟩, hconstructor, huse⟩ := by
      simpa only [access?, Option.bind_eq_bind, Option.bind_eq_some_iff] using h
    cases huse
    exact ⟨_, _, rfl, rfl, answers_of_constructor hconstructor⟩
  | _ => cases h

theorem declarations_addRequester (bridges : Bridges) (member : Member) (requester : Ty) :
    (bridges.addRequester member requester).declarations = bridges.declarations := by
  simp only [declarations, addRequester, List.map_map]
  refine List.map_congr_left fun bridge _ => ?_
  simp only [Function.comp_apply]
  split_ifs
  · rw [bridge.addRequester_member, bridge.addRequester_decl]
  · rfl

theorem declarations_addBridge (bridges : Bridges) (member : Member) (requester : Ty)
    (decl : BridgeDecl) : (bridges.addBridge member requester decl).declarations =
      bridges.declarations ++ [(member, decl)] := by
  simp [declarations, addBridge]

theorem map_member_eq (bridges : Bridges) :
    bridges.entries.map Bridge.member = bridges.declarations.map Prod.fst := by
  simp [declarations]

theorem Answers.grows {decl : BridgeDecl}
    (h : Answers nest bridges requester member decl bridges') :
    bridges.declarations <+: bridges'.declarations := by
  cases h with
  | shared hfind =>
    rw [declarations_addRequester]
  | newMethod hfind hfits hname =>
    rw [declarations_addBridge]
    exact List.prefix_append _ _
  | newConstructor hfind hdecl =>
    rw [declarations_addBridge]
    exact List.prefix_append _ _

theorem Answers.mem {decl : BridgeDecl}
    (h : Answers nest bridges requester member decl bridges') :
    (member, decl) ∈ bridges'.declarations := by
  cases h with
  | @shared _ bridge hfind =>
    rw [declarations_addRequester]
    have hmember : bridge.member = member := by
      simpa using List.find?_some hfind
    rw [← hmember]
    exact List.mem_map_of_mem (List.mem_of_find?_eq_some hfind)
  | newMethod hfind hfits hname =>
    rw [declarations_addBridge]
    exact List.mem_append_right _ (List.mem_singleton_self _)
  | newConstructor hfind hdecl =>
    rw [declarations_addBridge]
    exact List.mem_append_right _ (List.mem_singleton_self _)

theorem find?_eq_none_iff :
    bridges.find? member = none ↔ member ∉ bridges.entries.map Bridge.member := by
  simp [find?]

theorem nextAccessor_eq (bridges : Bridges) (owner : Ty) :
    bridges.nextAccessor owner = "accessor$" ++ toString (bridges.methodsOf owner).length := by
  have hcount : bridges.entries.countP (fun bridge => bridge.owner == owner && bridge.isAccessor) =
      (bridges.methodsOf owner).length := by
    rw [methodsOf, declarations, List.length_filterMap_eq_countP, List.countP_map]
    refine List.countP_congr fun bridge _ => ?_
    obtain ⟨member, requesters, decl⟩ := bridge
    by_cases howner : member.owner = owner <;> cases decl <;>
      simp [Bridge.owner, Bridge.isAccessor, BridgeDecl.method?, howner]
  rw [nextAccessor, hcount]

/-- The names of all types that are known to the nest or are markers. -/
def knownNames (bridges : Bridges) (nest : Nest) : List String :=
  (nest.members ++ nest.externals ++ bridges.markers).map TypeDecl.name

theorem mem_knownNames_of_isTaken {name : String}
    (h : bridges.isTaken nest (.object name) = true) : name ∈ bridges.knownNames nest := by
  have hnamed {decls : List TypeDecl} {decl : TypeDecl} (hfind : Nest.findNamed decls name = some decl) :
      name ∈ decls.map TypeDecl.name := by
    have hname : decl.name = name := by
      simpa using List.find?_some hfind
    exact List.mem_map.mpr ⟨decl, List.mem_of_find?_eq_some hfind, hname⟩
  rw [knownNames, List.map_append, List.map_append]
  rw [isTaken, Bool.or_eq_true] at h
  rcases h with hknown | hmarker
  · obtain ⟨decl, hdecl⟩ := Option.isSome_iff_exists.mp hknown
    simp only [Nest.get?, Ty.objectName?, Option.bind_some, Option.or_eq_some_iff] at hdecl
    rcases hdecl with hmember | ⟨_, hexternal⟩
    · exact List.mem_append_left _ (List.mem_append_left _ (hnamed hmember))
    · exact List.mem_append_left _ (List.mem_append_right _ (hnamed hexternal))
  · obtain ⟨marker, hmem, hty⟩ := List.any_eq_true.mp hmarker
    refine List.mem_append_right _ (List.mem_map.mpr ⟨marker, hmem, ?_⟩)
    rw [TypeDecl.name, beq_iff_eq.mp hty]
    rfl

/-- The search goes on as long as types are taken and there are tries left. -/
theorem freeMarker_spec (bridges : Bridges) (nest : Nest) (base : Ty) (tries number : Nat) :
    (∀ other, number ≤ other → other < bridges.freeMarker nest base tries number →
        bridges.isTaken nest (markerType base other) = true) ∧
      (bridges.isTaken nest (markerType base (bridges.freeMarker nest base tries number)) = false ∨
        bridges.freeMarker nest base tries number = number + tries) := by
  induction tries generalizing number with
  | zero =>
    refine ⟨fun other hle hlt => ?_, .inr rfl⟩
    rw [freeMarker] at hlt
    omega
  | succ tries ih =>
    rw [freeMarker]
    split_ifs with htaken
    · obtain ⟨hbefore, hend⟩ := ih (number + 1)
      refine ⟨fun other hle hlt => ?_, ?_⟩
      · rcases Nat.eq_or_lt_of_le hle with rfl | hgt
        · exact htaken
        · exact hbefore other hgt hlt
      · rcases hend with hfree | hall
        · exact .inl hfree
        · right
          omega
    · exact ⟨fun other hle hlt => by omega, .inl (Bool.eq_false_of_not_eq_true htaken)⟩

/-- More markers are tried than there are known types, so a new one is found. -/
theorem isTaken_newMarker (bridges : Bridges) (nest : Nest) (owner : Ty) :
    bridges.isTaken nest (bridges.newMarker nest owner).1 = false := by
  let tries := nest.members.length + nest.externals.length + bridges.markers.length + 1
  let base := nest.outermost owner
  have htries : (bridges.knownNames nest).length < tries := by
    simp only [knownNames, List.length_map, List.length_append, tries]
    omega
  obtain ⟨hbefore, hend⟩ := bridges.freeMarker_spec nest base tries bridges.markerCount
  refine hend.resolve_right fun hall => ?_
  obtain ⟨i, hi, hnew⟩ :=
    Slots.exists_numbered_notMem htries (base.display ++ "$") bridges.markerCount
  exact hnew (mem_knownNames_of_isTaken (hbefore (bridges.markerCount + i) (by omega) (by omega)))

theorem markers_newMarker (bridges : Bridges) (nest : Nest) (owner : Ty) :
    ∃ marker, (bridges.newMarker nest owner).2.markers = bridges.markers ++ [marker] ∧
      marker.ty = (bridges.newMarker nest owner).1 ∧ marker.modifiers = Bridge.modifiers :=
  ⟨_, rfl, rfl, rfl⟩

/-- A type asks how to perform an access. -/
structure Call where
  requester : Ty
  access : Tree

/-- The private member of another type that a call reaches. -/
def Call.member? (nest : Nest) (call : Call) : Option Member :=
  if nest.trespasses call.requester call.access then call.access.member? else none

/-- Answer a call, and keep the registry if there is nothing to bridge. -/
def serve (nest : Nest) (bridges : Bridges) (call : Call) : Option Tree × Bridges :=
  match bridges.access? nest call.requester call.access with
  | some (use, next) => (some use, next)
  | none => (none, bridges)

theorem serve_eq_some {call : Call}
    (h : bridges.access? nest call.requester call.access = some (use, bridges')) :
    bridges.serve nest call = (some use, bridges') := by
  rw [serve, h]

theorem serve_eq_none {call : Call}
    (h : bridges.access? nest call.requester call.access = none) :
    bridges.serve nest call = (none, bridges) := by
  rw [serve, h]

/-- The registry after calls in this order. -/
def after (nest : Nest) (bridges : Bridges) : List Call → Bridges
  | [] => bridges
  | call :: rest => after nest (bridges.serve nest call).2 rest

/-- The members that calls reach, in the order of their first use. -/
def reached (nest : Nest) (calls : List Call) : List Member :=
  (calls.filterMap (Call.member? nest)).eraseDups

/-- The types that reach a member, in the order of their first use. -/
def users (nest : Nest) (calls : List Call) (member : Member) : List Ty :=
  ((calls.filter fun call => call.member? nest = some member).map Call.requester).eraseDups

/-- The registry holds what the calls so far need, and nothing else. -/
structure Serves (nest : Nest) (calls : List Call) (bridges : Bridges) : Prop where
  members : bridges.entries.map Bridge.member = reached nest calls
  requesters : ∀ bridge ∈ bridges.entries, bridge.requesters = users nest calls bridge.member
  fits : ∀ bridge ∈ bridges.entries, BridgeDecl.Fits bridge.member bridge.decl
  names : ∀ owner, (bridges.methodsOf owner).map MethodOf.name =
    (List.range (bridges.methodsOf owner).length).map fun number => "accessor$" ++ toString number
  markers : bridges.constructors.map (fun decl => decl.paramTypes.getLast?) =
    bridges.markers.map fun marker => some marker.ty
  distinct : (bridges.markers.map TypeDecl.ty).Nodup
  unknown : ∀ marker ∈ bridges.markers, nest.get? marker.ty = none
  hidden : ∀ marker ∈ bridges.markers, marker.modifiers = Bridge.modifiers

theorem serves_empty (nest : Nest) : Serves nest [] empty where
  members := rfl
  requesters := by simp [empty]
  fits := by simp [empty]
  names := fun _ => rfl
  markers := rfl
  distinct := List.nodup_nil
  unknown := by simp [empty]
  hidden := by simp [empty]

theorem eraseDups_concat {α : Type} [DecidableEq α] (items : List α) (item : α) :
    (items ++ [item]).eraseDups =
      if item ∈ items.eraseDups then items.eraseDups else items.eraseDups ++ [item] := by
  rw [List.eraseDups_append]
  split_ifs with hmem <;> rw [List.mem_eraseDups] at hmem
  · simp [List.removeAll, hmem]
  · simp [List.removeAll, hmem, List.eraseDups_cons]

theorem nodup_eraseDups {α : Type} [DecidableEq α] (items : List α) : items.eraseDups.Nodup := by
  induction items using List.reverseRecOn with
  | nil => exact List.nodup_nil
  | append_singleton items item ih =>
    rw [eraseDups_concat]
    split_ifs with hmem
    · exact ih
    · rw [← List.concat_eq_append]
      exact ih.concat hmem

section Step

variable {calls : List Call} {call : Call} {decl : BridgeDecl}

theorem reached_of_none (h : call.member? nest = none) :
    reached nest (calls ++ [call]) = reached nest calls := by
  simp [reached, h]

theorem users_of_ne (h : call.member? nest ≠ some member) :
    users nest (calls ++ [call]) member = users nest calls member := by
  simp [users, h]

theorem mem_reached_iff : member ∈ reached nest calls ↔
    ∃ call ∈ calls, call.member? nest = some member := by
  simp [reached]

theorem reached_concat (h : call.member? nest = some member) :
    reached nest (calls ++ [call]) =
      if member ∈ reached nest calls then reached nest calls
      else reached nest calls ++ [member] := by
  have hlast : [call].filterMap (Call.member? nest) = [member] := by simp [h]
  rw [reached, List.filterMap_append, hlast, eraseDups_concat]
  rfl

theorem users_concat (h : call.member? nest = some member) :
    users nest (calls ++ [call]) member =
      if call.requester ∈ users nest calls member then users nest calls member
      else users nest calls member ++ [call.requester] := by
  have hlast : [call].filter (fun call => decide (call.member? nest = some member)) = [call] := by
    simp [h]
  rw [users, List.filter_append, List.map_append, hlast]
  exact eraseDups_concat _ _

theorem users_eq_nil (h : member ∉ reached nest calls) : users nest calls member = [] := by
  have hnone : calls.filter (fun call => decide (call.member? nest = some member)) = [] := by
    rw [List.filter_eq_nil_iff]
    intro call hmem hcall
    exact h (mem_reached_iff.mpr ⟨call, hmem, of_decide_eq_true hcall⟩)
  rw [users, hnone]
  rfl

theorem Serves.fit (h : Serves nest calls bridges) : bridges.Fit := by
  intro bridge hmem
  obtain ⟨member, requesters, decl⟩ := bridge
  have hfits := h.fits _ hmem
  cases hfits <;> rfl

theorem Serves.nodup (h : Serves nest calls bridges) :
    (bridges.entries.map Bridge.member).Nodup := by
  rw [h.members]
  exact nodup_eraseDups _

/-- One more use of a bridge that is there. -/
theorem Serves.addRequester (h : Serves nest calls bridges)
    (hcall : call.member? nest = some member) (hfind : bridges.find? member = some bridge) :
    Serves nest (calls ++ [call]) (bridges.addRequester member call.requester) := by
  have hdeclarations := bridges.declarations_addRequester member call.requester
  have hmem : member ∈ reached nest calls := by
    rw [← h.members]
    by_contra hnew
    rw [find?_eq_none_iff.mpr hnew] at hfind
    cases hfind
  have hentry {shared : Bridge}
      (hshared : shared ∈ (bridges.addRequester member call.requester).entries) :
      ∃ bridge ∈ bridges.entries, shared =
        if bridge.member = member then bridge.addRequester call.requester else bridge := by
    obtain ⟨bridge, hbridge, rfl⟩ := List.mem_map.mp hshared
    exact ⟨bridge, hbridge, rfl⟩
  refine ⟨?_, ?_, ?_, ?_, ?_, h.distinct, h.unknown, h.hidden⟩
  · rw [map_member_eq, hdeclarations, ← map_member_eq, h.members, reached_concat hcall, if_pos hmem]
  · intro shared hshared
    obtain ⟨bridge, hbridge, rfl⟩ := hentry hshared
    have hrequesters := h.requesters bridge hbridge
    split_ifs with hmember
    · rw [bridge.addRequester_member, hmember, users_concat hcall]
      rw [bridge.addRequester_requesters, hrequesters, hmember]
    · rw [hrequesters, users_of_ne]
      rw [hcall]
      exact fun heq => hmember (Option.some.inj heq).symm
  · intro shared hshared
    obtain ⟨bridge, hbridge, rfl⟩ := hentry hshared
    have hfits := h.fits bridge hbridge
    split_ifs
    · rw [bridge.addRequester_member, bridge.addRequester_decl]
      exact hfits
    · exact hfits
  · intro owner
    rw [methodsOf, hdeclarations]
    exact h.names owner
  · rw [constructors, hdeclarations]
    exact h.markers

/-- The first use of a member adds a bridge for it. -/
theorem Serves.addBridge (h : Serves nest calls bridges) (hcall : call.member? nest = some member)
    (hfind : bridges.find? member = none) (hfits : BridgeDecl.Fits member decl) :
    let entries := (bridges.addBridge member call.requester decl).entries
    entries.map Bridge.member = reached nest (calls ++ [call]) ∧
      (∀ bridge ∈ entries, bridge.requesters = users nest (calls ++ [call]) bridge.member) ∧
      ∀ bridge ∈ entries, BridgeDecl.Fits bridge.member bridge.decl := by
  have hnew : member ∉ reached nest calls := by
    rw [← h.members]
    exact find?_eq_none_iff.mp hfind
  refine ⟨?_, fun bridge hmem => ?_, fun bridge hmem => ?_⟩
  · rw [reached_concat hcall, if_neg hnew, ← h.members]
    simp [Bridges.addBridge]
  · rcases List.mem_append.mp hmem with hold | hlast
    · rw [h.requesters bridge hold, users_of_ne]
      rw [hcall]
      intro heq
      rw [← h.members, Option.some.inj heq] at hnew
      exact hnew (List.mem_map_of_mem hold)
    · rw [List.mem_singleton.mp hlast, users_concat hcall, users_eq_nil hnew]
      rfl
  · rcases List.mem_append.mp hmem with hold | hlast
    · exact h.fits bridge hold
    · rw [List.mem_singleton.mp hlast]
      exact hfits

theorem Serves.newMethod (h : Serves nest calls bridges) {decl : Method}
    (hcall : call.member? nest = some member) (hfind : bridges.find? member = none)
    (hfits : BridgeDecl.Fits member (.method decl))
    (hname : decl.name = bridges.nextAccessor member.owner) :
    Serves nest (calls ++ [call]) (bridges.addBridge member call.requester (.method decl)) := by
  obtain ⟨hmembers, hrequesters, hdecls⟩ := h.addBridge hcall hfind hfits
  refine ⟨hmembers, hrequesters, hdecls, fun owner => ?_, ?_, h.distinct, h.unknown, h.hidden⟩
  · have hmethods : (bridges.addBridge member call.requester (.method decl)).methodsOf owner =
        bridges.methodsOf owner ++ if member.owner = owner then [decl] else [] := by
      rw [methodsOf, declarations_addBridge, List.filterMap_append, ← methodsOf]
      split_ifs with howner <;> simp [BridgeDecl.method?, howner]
    rw [hmethods]
    split_ifs with howner
    · rw [List.map_append, h.names owner, List.length_append, List.length_singleton,
        List.range_succ, List.map_append]
      rw [List.map_singleton, List.map_singleton, hname, nextAccessor_eq, howner]
    · rw [List.append_nil]
      exact h.names owner
  · rw [constructors, declarations_addBridge, List.filterMap_append, ← constructors]
    simp only [List.filterMap_cons, List.filterMap_nil, BridgeDecl.constructor?, List.append_nil]
    exact h.markers

theorem Serves.newConstructor (h : Serves nest calls bridges) {owner : Ty} {types : List Ty}
    {declared : List Param} (hcall : call.member? nest = some (.constructor owner types))
    (hfind : bridges.find? (.constructor owner types) = none) :
    Serves nest (calls ++ [call]) ((bridges.newMarker nest owner).2.addBridge
      (.constructor owner types) call.requester
      (.constructor (Bridge.delegate owner types declared (bridges.newMarker nest owner).1))) := by
  obtain ⟨hmembers, hrequesters, hdecls⟩ := h.addBridge hcall hfind
    (.constructor owner types declared (bridges.newMarker nest owner).1)
  obtain ⟨marker, hmarkers, hty, hmodifiers⟩ := bridges.markers_newMarker nest owner
  have hfree := bridges.isTaken_newMarker nest owner
  rw [isTaken, Bool.or_eq_false_iff, ← hty] at hfree
  obtain ⟨hunknown, hnew⟩ := hfree
  have hlast {other : TypeDecl} (hmem : other ∈ (bridges.newMarker nest owner).2.markers) :
      other ∈ bridges.markers ∨ other = marker := by
    rw [hmarkers] at hmem
    simpa using hmem
  refine ⟨hmembers, hrequesters, hdecls, fun other => ?_, ?_, ?_, fun other hmem => ?_,
    fun other hmem => ?_⟩
  · rw [methodsOf, declarations_addBridge, List.filterMap_append]
    simp only [List.filterMap_cons, List.filterMap_nil, BridgeDecl.method?, ite_self,
      List.append_nil]
    exact h.names other
  · rw [constructors, declarations_addBridge, List.filterMap_append, List.map_append]
    change bridges.constructors.map _ ++ _ = (bridges.newMarker nest owner).2.markers.map _
    rw [h.markers, hmarkers, List.map_append]
    simp [BridgeDecl.constructor?, Bridge.delegate, Constructor.paramTypes, hty]
  · change ((bridges.newMarker nest owner).2.markers.map TypeDecl.ty).Nodup
    rw [hmarkers, List.map_append, List.map_singleton, ← List.concat_eq_append]
    refine h.distinct.concat fun hmem => ?_
    obtain ⟨other, hother, heq⟩ := List.mem_map.mp hmem
    exact List.any_eq_false.mp hnew other hother (beq_iff_eq.mpr heq)
  · rcases hlast hmem with hold | rfl
    · exact h.unknown other hold
    · simpa using hunknown
  · rcases hlast hmem with hold | rfl
    · exact h.hidden other hold
    · exact hmodifiers

/-- One call, whatever it asks for. -/
theorem Serves.serve (h : Serves nest calls bridges) (call : Call) :
    Serves nest (calls ++ [call]) (bridges.serve nest call).2 := by
  cases htrespasses : nest.trespasses call.requester call.access with
  | false =>
    have hcall : call.member? nest = none := by simp [Call.member?, htrespasses]
    rw [serve_eq_none (access?_eq_none htrespasses)]
    refine ⟨?_, fun bridge hmem => ?_, h.fits, h.names, h.markers, h.distinct, h.unknown, h.hidden⟩
    · rw [reached_of_none hcall, h.members]
    · rw [users_of_ne (by simp [hcall]), h.requesters bridge hmem]
  | true =>
    obtain ⟨use, next, haccess, _⟩ := h.fit.access? htrespasses
    rw [serve_eq_some haccess]
    obtain ⟨member, decl, hmember, _, hanswers⟩ := answers_of_access? haccess
    have hcall : call.member? nest = some member := by simp [Call.member?, htrespasses, hmember]
    cases hanswers with
    | shared hfind => exact h.addRequester hcall hfind
    | newMethod hfind hfits hname => exact h.newMethod hcall hfind hfits hname
    | newConstructor hfind hdecl =>
      rw [hdecl]
      exact h.newConstructor hcall hfind

end Step

theorem Serves.after {before : List Call} (h : Serves nest before bridges) (calls : List Call) :
    Serves nest (before ++ calls) (bridges.after nest calls) := by
  induction calls generalizing before bridges with
  | nil => simpa [Bridges.after] using h
  | cons call rest ih =>
    rw [List.append_cons]
    exact ih (h.serve call)

/-- A member that is declared in the registry is bridged as declared there. -/
theorem Serves.serve_of_mem {calls : List Call} {decl : BridgeDecl}
    (h : Serves nest calls bridges) (hdecl : (member, decl) ∈ bridges.declarations)
    (htrespasses : nest.trespasses requester access = true) (hmember : access.member? = some member) :
    (bridges.serve nest ⟨requester, access⟩).1 = nest.through? access decl := by
  obtain ⟨use, next, haccess, _⟩ := h.fit.access? htrespasses
  obtain ⟨member', decl', hmember', huse, hanswers⟩ := answers_of_access? haccess
  obtain rfl : member' = member := by simpa [hmember] using hmember'.symm
  have hserve : bridges.serve nest ⟨requester, access⟩ = (some use, next) := serve_eq_some haccess
  have hdistinct := (h.serve ⟨requester, access⟩).nodup
  rw [hserve, map_member_eq] at hdistinct
  have hkept : (member', decl) ∈ next.declarations := hanswers.grows.subset hdecl
  have hsame : (member', decl') = (member', decl) :=
    List.inj_on_of_nodup_map hdistinct hanswers.mem hkept rfl
  rw [hserve, ← (Prod.mk.inj hsame).2, huse]

/-- The registry has come about by calls. -/
def Sound (nest : Nest) (bridges : Bridges) : Prop := ∃ calls, bridges = empty.after nest calls

theorem after_concat (bridges : Bridges) (calls : List Call) (call : Call) :
    bridges.after nest (calls ++ [call]) = ((bridges.after nest calls).serve nest call).2 := by
  induction calls generalizing bridges with
  | nil => rfl
  | cons first rest ih => exact ih _

namespace Sound

theorem empty (nest : Nest) : Bridges.empty.Sound nest := ⟨[], rfl⟩

theorem access? (h : bridges.Sound nest)
    (haccess : bridges.access? nest requester access = some (use, bridges')) :
    bridges'.Sound nest := by
  obtain ⟨calls, rfl⟩ := h
  refine ⟨calls ++ [⟨requester, access⟩], ?_⟩
  rw [after_concat, serve_eq_some haccess]

theorem serves (h : bridges.Sound nest) : ∃ calls, Serves nest calls bridges := by
  obtain ⟨calls, rfl⟩ := h
  exact ⟨calls, (serves_empty nest).after calls⟩

theorem fits_contains (h : bridges.Sound nest) (hmem : bridge ∈ bridges.entries) :
    BridgeDecl.Fits bridge.member bridge.decl ∧ nest.contains bridge.owner = true := by
  obtain ⟨calls, hserves⟩ := h.serves
  refine ⟨hserves.fits bridge hmem, ?_⟩
  have hreached : bridge.member ∈ reached nest calls := by
    rw [← hserves.members]
    exact List.mem_map_of_mem hmem
  obtain ⟨call, _, hcall⟩ := mem_reached_iff.mp hreached
  unfold Call.member? at hcall
  split_ifs at hcall with htrespasses
  exact Nest.contains_of_trespasses htrespasses hcall

end Sound

end Bridges

namespace State

theorem access?_of_bridged {env : Env} {s s' : State} {access use : Tree}
    (h : s.bridged env access = (some use, s')) : ∃ bridges,
      s.bridges.access? env.nest s.currentType access = some (use, bridges) ∧
        s' = { s with bridges := bridges } := by
  unfold State.bridged at h
  split_ifs at h
  · split at h
    next bridges haccess =>
      cases h
      exact ⟨_, haccess, rfl⟩
    next => cases h
  · cases h

theorem eq_of_bridged_eq_none {env : Env} {s s' : State} {access : Tree}
    (h : s.bridged env access = (none, s')) : s' = s := by
  unfold State.bridged at h
  split_ifs at h
  · split at h
    next => cases h
    next =>
      cases h
      rfl
  · cases h
    rfl

end State

end StackLowering
