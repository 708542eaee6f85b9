import StackLowering.Proofs.CleanupCopies
import StackLowering.Proofs.HiddenNames
import StackLowering.Proofs.Restoration
/-!
Variables in the copies of a cleanup. A copy that a transfer runs is lowered
under the bindings at the transfer; the copies behind the body and in the handler
are lowered under those around the region. So a variable that the body declares
before it leaves captures its name in the copies of the transfers, and in no
other copy.
-/

namespace StackLowering

namespace Slots

variable {slots slots' : Slots} {name : String} {ty : Ty} {slot : UInt16}

theorem lookup?_declare_of_ne (h : slots.declare name ty = (.ok slot, slots')) {other : String}
    (hne : other ≠ name) : slots'.lookup? other = slots.lookup? other := by
  rcases declare_eq_ok h with ⟨_, rfl⟩ | ⟨_, _, rfl⟩
  · rfl
  · have hkeys : compare name other ≠ .eq :=
      fun heq => hne (Std.LawfulEqOrd.eq_of_compare heq).symm
    rw [lookup?, lookup?, allocate, shadow_eq, Std.TreeMap.getElem?_insert, if_neg hkeys]

end Slots

namespace State

variable {s m s' : State}

/-- Every name means the same variable in both states. -/
def SameBindings (s s' : State) : Prop := ∀ name, s'.slots.lookup? name = s.slots.lookup? name

/-- The slots stand for nested scopes. -/
def Lexical (s : State) : Prop := ∃ model, s.slots.Refines model

/-- The variables of all scopes but the innermost one are kept. -/
def KeepsOuter (s s' : State) : Prop :=
  ∀ outer, s.slots.Encloses outer → s'.slots.Encloses outer

/-- Every name but one means the same variable in both states. -/
def SameBindingsBut (hidden : String) (s s' : State) : Prop :=
  ∀ name, name ≠ hidden → s'.slots.lookup? name = s.slots.lookup? name

theorem SameBindings.trans (h : s.SameBindings m) (h' : m.SameBindings s') : s.SameBindings s' :=
  fun name => (h' name).trans (h name)

theorem lexical_initial (nest : Nest) (shared : Shared) (info : RoutineInfo) :
    (initial nest shared info).Lexical :=
  ⟨_, Slots.refines_empty⟩

theorem sameBindingsBut_declare {name : String} {ty : Ty} {slot : UInt16} {slots : Slots}
    (h : s.slots.declare name ty = (.ok slot, slots)) :
    s.SameBindingsBut name (s.withSlots slots) :=
  fun _ hne => Slots.lookup?_declare_of_ne h hne

namespace KeepsOuter

theorem of_eq (h : s'.slots = s.slots) : s.KeepsOuter s' := fun outer houter => by rwa [h]

theorem trans (h : s.KeepsOuter m) (h' : m.KeepsOuter s') : s.KeepsOuter s' :=
  fun outer houter => h' outer (h outer houter)

theorem lexical (h : s.KeepsOuter s') (hs : s.Lexical) : s'.Lexical := by
  obtain ⟨model, hmodel⟩ := hs
  obtain ⟨current, cells, hrefines⟩ := h model.outer ⟨_, _, hmodel⟩
  exact ⟨_, hrefines⟩

theorem emitsAll (calls : List Call) (s : State) : s.KeepsOuter (s.emitsAll calls) :=
  of_eq (slots_emitsAll calls s)

theorem declare {name : String} {ty : Ty} {slot : UInt16} {slots : Slots}
    (h : s.slots.declare name ty = (.ok slot, slots)) : s.KeepsOuter (s.withSlots slots) := by
  have hslots : slots = (s.slots.declare name ty).2 := by rw [h]
  rw [hslots]
  exact (Restores.declare name ty s).outer

theorem takeName (base : String) (s : State) : s.KeepsOuter (s.takeName base) :=
  (Restores.uniqueName base s).outer

theorem reserveAll (names : List String) (s : State) : s.KeepsOuter (s.reserveAll names) := by
  induction names generalizing s with
  | nil => exact of_eq rfl
  | cons name rest ih => exact trans (Restores.reserve name s).outer (ih _)

theorem rewrites {env : Env} {tree rewritten : Tree} (h : Rewrites env s tree rewritten s') :
    s.KeepsOuter s' := by
  cases h with
  | indexed => exact (takeName _ _).trans (takeName _ _)
  | iterator | synchronized | hashed => exact takeName _ _

theorem refines_exit (h : s.enterSlotScope.KeepsOuter m) {model : LexicalScopes}
    (hmodel : s.slots.Refines model) :
    ∃ cells, m.exitSlotScope.slots.Refines { model with cells := cells } := by
  have hpushed : s.enterSlotScope.slots.Encloses (model.current :: model.outer) :=
    ⟨[], model.cells, (hmodel.serve .pushScope).2⟩
  obtain ⟨_, used, hinner⟩ := h _ hpushed
  exact ⟨used, hinner.popScope⟩

theorem exitSlotScope (h : s.enterSlotScope.KeepsOuter m) : s.KeepsOuter m.exitSlotScope := by
  rintro outer ⟨current, cells, hrefines⟩
  obtain ⟨used, hexit⟩ := h.refines_exit hrefines
  exact ⟨current, used, hexit⟩

theorem sameBindings (h : s.enterSlotScope.KeepsOuter m) (hs : s.Lexical) :
    s.SameBindings m.exitSlotScope := by
  intro name
  obtain ⟨model, hmodel⟩ := hs
  obtain ⟨used, hexit⟩ := h.refines_exit hmodel
  rw [hexit.lookup?, hmodel.lookup?]
  rfl

end KeepsOuter

end State

namespace Lowers

open State

variable {env : Env} {job : Job} {s s' : State}

/-- Every job keeps the scopes around the innermost one. -/
theorem keepsOuter (h : Lowers env job s s') : s.KeepsOuter s' := by
  induction h with
  | value _ ih | statement _ ih => exact ih
  | inScope _ ih => exact KeepsOuter.exitSlotScope ih
  | nil => exact .of_eq rfl
  | cons _ _ ih ih' => exact ih.trans ih'
  | operation _ _ ih =>
    have hoperands := (KeepsOuter.emitsAll _ _).trans ih
    exact (hoperands.trans (.emitsAll _ _)).trans (.of_eq (slots_discard _ _))
  | bridged _ hbridged _ ih =>
    obtain ⟨bridges, rfl⟩ := State.bridged_keeps hbridged
    exact ih
  | rewritten hrewrites _ ih =>
    exact KeepsOuter.exitSlotScope ((KeepsOuter.rewrites hrewrites).trans ih)
  | enumSwitch _ _ ih => exact ih
  | block _ ih => exact ih
  | declared _ hslot => exact .declare hslot
  | initialized _ _ hslot ih => exact ih.trans (.declare hslot)
  | sameJumps _ _ _ ih ih' => exact ih.trans ih'
  | skipJumps _ _ _ ih ih' => exact ih.trans ih'
  | notJumps _ ih => exact ih
  | literalJumps | literalSkips => exact .of_eq rfl
  | testJumps _ _ ih => exact ih
  | logical _ ih => exact (ih.trans (.emitsAll _ _)).trans (.of_eq (slots_discard _ _))
  | cleanup _ _ ih => exact ih
  | noCleanup => exact .of_eq rfl
  | cleanups _ ih => exact ih
  | leave _ _ ih => exact ih
  | returnVoid _ ih => exact ih
  | returnValue _ _ _ ih => exact ih
  | returnSaved _ _ _ hslot _ ih ih' =>
    have hsaved := ((KeepsOuter.takeName "$result" _).trans (.declare hslot)).trans ih'
    exact ih.trans (.exitSlotScope hsaved)
  | @branch _ _ _ _ _ s _ _ _ _ _ hmiss _ _ _ _ ih₁ ih₂ ih₃ ih₄ =>
    obtain ⟨count, rfl⟩ := hmiss.newLabels
    have hstart := KeepsOuter.of_eq (slots_newLabels count (s.newLabels 4))
    exact hstart.trans (((ih₁.trans ih₂).trans ih₃).trans ih₄)
  | noDetour => exact .of_eq rfl
  | detour _ ih => exact ih
  | noElse => exact .of_eq rfl
  | hasElse _ ih => exact ih
  | forLoop _ _ _ _ ih₁ ih₂ ih₃ ih₄ =>
    exact KeepsOuter.exitSlotScope (((ih₁.trans ih₂).trans ih₃).trans ih₄)
  | whileLoop _ _ ih₁ ih₂ =>
    exact ((KeepsOuter.emitsAll _ _).trans ih₁).trans ih₂
  | tested _ ih => exact ih
  | endless => exact .of_eq rfl
  | intSwitch _ _ _ _ _ htargets _ _ ih₁ ih₂ ih₃ =>
    obtain ⟨count, rfl⟩ := newLabels_of_armTargets htargets
    exact ((ih₁.trans (.of_eq (slots_newLabels count _))).trans ih₂).trans ih₃
  | sharedArm => exact .of_eq rfl
  | arm _ _ ih => exact ih
  | guarded _ _ _ _ ih₁ ih₂ ih₃ ih₄ =>
    have hbody := (KeepsOuter.of_eq (slots_pushCleanup? _ _)).trans ih₁
    have hclauses := (hbody.trans ih₂).trans ih₃
    exact (hclauses.trans (.of_eq (slots_popCleanup? _ _))).trans ih₄
  | noClauses => exact .of_eq rfl
  | clause _ hslot _ _ _ ih₁ ih₂ ih₃ =>
    have hclause := KeepsOuter.exitSlotScope ((KeepsOuter.declare hslot).trans ih₁)
    exact (hclause.trans ih₂).trans ih₃
  | noCatchAll => exact .of_eq rfl
  | catchAll ht hslot _ ih =>
    subst ht
    have hcopy := ((KeepsOuter.takeName "$throwable" _).trans (.declare hslot)).trans ih
    have hhandler := KeepsOuter.exitSlotScope hcopy
    exact (KeepsOuter.emitsAll _ (newLabels 1 _)).trans hhandler
  | bodiless | localRoutine => exact .of_eq rfl
  | param _ hslot => exact .declare hslot
  | body _ _ ih ih' =>
    exact (((KeepsOuter.reserveAll _ _).trans ih).trans ih').trans (.emitsAll _ _)

theorem lexical (h : Lowers env job s s') (hs : s.Lexical) : s'.Lexical := h.keepsOuter.lexical hs

theorem sameBindings_inScope {tree : Tree} (h : Lowers env (.inScope tree) s s')
    (hs : s.Lexical) : s.SameBindings s' := by
  cases h with
  | inScope htree =>
    have hinner := htree.keepsOuter
    exact KeepsOuter.sameBindings hinner hs

end Lowers

/-- Copies of cleanups, one after the other, each lowered where every name means
what it means in the state `site`. -/
inductive Copies (env : Env) (site : State) : List Cleanup → State → State → Prop
  | done {s : State} : Copies env site [] s s
  | copy {c : Cleanup} {index : Nat} {inner rest : List Cleanup} {s m s' : State}
      (hbindings : site.SameBindings s) (htaken : s.cleanups.drop index = c :: inner)
      (hcopy : Lowers env (.inScope c.body) (s.takeCleanups index).2 m)
      (hrest : Copies env site rest (m.restoreCleanups (c :: inner)) s') :
      Copies env site (c :: rest) s s'

section Transfers

variable {env : Env} {site s s' : State}

theorem Lowers.copies_of_indices {indices : List Nat}
    (h : Lowers env (.seq (indices.map .cleanup)) s s') (hs : s.Lexical)
    (hsite : site.SameBindings s) :
    Copies env site (indices.filterMap (s.cleanups[·]?)) s s' := by
  induction indices generalizing s with
  | nil =>
    cases h
    exact .done
  | cons index rest ih =>
    cases h with
    | cons hcopy hrest =>
      have hlexical := hcopy.lexical hs
      have hkept := hcopy.keeps.cleanups
      have hindex : s.cleanups[index]? = (s.cleanups.drop index).head? := List.head?_drop.symm
      rw [List.filterMap_cons, hindex]
      cases hcopy with
      | noCleanup htaken =>
        rw [htaken]
        exact ih hrest hs hsite
      | @cleanup _ _ _ _ m htaken hbody =>
        rw [htaken]
        have hsame : s.SameBindings m := hbody.sameBindings_inScope hs
        have hothers := ih hrest hlexical (hsite.trans hsame)
        rw [hkept] at hothers
        exact .copy hsite htaken hbody hothers

/-- The indices of the copies run from the innermost cleanup outwards. -/
theorem filterMap_cleanupIndices (start : Nat) (cleanups : List Cleanup) :
    ((List.range (cleanups.length - start)).map (cleanups.length - 1 - ·)).filterMap
      (cleanups[·]?) = (cleanups.drop start).reverse := by
  induction cleanups using List.reverseRecOn with
  | nil => simp
  | append_singleton init c ih =>
    rcases Nat.lt_or_ge init.length start with hlt | hle
    · have hlength : (init ++ [c]).length ≤ start := by
        rw [List.length_append, List.length_singleton]
        omega
      rw [Nat.sub_eq_zero_of_le hlength, List.drop_of_length_le hlength]
      rfl
    · rw [List.drop_append_of_le_length hle, List.reverse_append, List.length_append,
        List.length_singleton, Nat.succ_sub hle, List.range_succ_eq_map]
      have hrest : ∀ i ∈ List.range (init.length - start),
          (init ++ [c])[init.length + 1 - 1 - (i + 1)]? = init[init.length - 1 - i]? := by
        intro i hi
        have hlt := List.mem_range.mp hi
        rw [List.getElem?_append_left (by omega)]
        congr 1
        omega
      simp only [List.map_cons, List.map_map, List.filterMap_cons, List.filterMap_map] at ih ⊢
      rw [← ih]
      simp only [Nat.sub_zero, Nat.add_sub_cancel, List.getElem?_concat_length,
        List.reverse_singleton, List.singleton_append]
      congr 1
      exact List.filterMap_congr hrest

theorem Lowers.copies {start : Nat} (h : Lowers env (.cleanups start) s s') (hs : s.Lexical)
    (hsite : site.SameBindings s) : Copies env site (s.cleanups.drop start).reverse s s' := by
  cases h with
  | cleanups hcopies =>
    rw [← filterMap_cleanupIndices]
    apply copies_of_indices _ hs hsite
    rw [List.map_map]
    exact hcopies

/-- A break, continue or redirect to the default runs the cleanups inside the
construct that it leaves, under the bindings at the transfer. -/
theorem Lowers.leave_copies {tree : Tree} {depth : Nat} {target : Label}
    (hleaves : Leaves s tree depth target) (h : Lowers env (.tree tree) s s') (hs : s.Lexical) :
    ∃ m, Copies env s (s.cleanups.drop (s.firstCleanupInside depth)).reverse s m ∧
      s' = m.emits (.jump .jump target) := by
  cases h with
  | @leave _ depth' target' _ m hleaves' hcleanups =>
    have hsame : depth = depth' ∧ target = target' := by
      cases hleaves with
      | breakTo hflow | continueTo hflow | redirect hflow =>
        cases hleaves'
        rename_i hflow'
        cases hflow.symm.trans hflow'
        exact ⟨rfl, rfl⟩
    obtain ⟨rfl, rfl⟩ := hsame
    exact ⟨m, hcleanups.copies hs fun _ => rfl, rfl⟩
  | operation hoperation =>
    cases hleaves <;> cases hoperation with
      | access haccess => cases haccess
  | bridged haccess => cases hleaves <;> cases haccess
  | rewritten hrewrites => cases hleaves <;> cases hrewrites
  | enumSwitch | block | declared | initialized | logical | returnVoid | returnValue
  | returnSaved | branch | forLoop | whileLoop | intSwitch | guarded | bodiless
  | localRoutine => cases hleaves

/-- A return without a value runs all cleanups under the bindings at the return. -/
theorem Lowers.returnVoid_copies (h : Lowers env (.tree (.ret none)) s s') (hs : s.Lexical) :
    ∃ m, Copies env s s.cleanups.reverse s m ∧ s' = m.emits (.op .returnVoid) := by
  obtain ⟨m, hcleanups, rfl⟩ := h.returnVoid_inv
  exact ⟨m, hcleanups.copies hs fun _ => rfl, rfl⟩

/-- A return with a value runs the cleanups under the bindings after the value,
except for the hidden variable that holds it. -/
theorem Lowers.returnSaved_copies {value : Tree} (h : Lowers env (.tree (.ret (some value))) s s')
    (hs : s.Lexical) (hcleanups : s.cleanups ≠ []) :
    ∃ (m site m' : State) (hidden : String), Lowers env (.value value) s m ∧
      m.SameBindingsBut hidden site ∧ Copies env site s.cleanups.reverse site m' := by
  cases h with
  | returnValue _ hvalue hempty => exact absurd (hvalue.keeps.cleanups.symm.trans hempty) hcleanups
  | @returnSaved _ _ slot slots _ m m' _ hvalue _ hslot hcopies =>
    have hdeclared := State.sameBindingsBut_declare hslot
    have hpushed : m.enterSlotScope.Lexical := by
      obtain ⟨model, hmodel⟩ := hvalue.lexical hs
      exact ⟨_, (hmodel.serve .pushScope).2⟩
    have hlexical := ((State.KeepsOuter.takeName "$result" _).trans (.declare hslot)).lexical
      hpushed
    have hall := hcopies.copies hlexical fun _ => rfl
    have hkept : m.cleanups = s.cleanups := hvalue.keeps.cleanups
    rw [← hkept]
    exact ⟨m, ((m.enterSlotScope.takeName "$result").withSlots slots).emits (.setLocal slot), m',
      _, hvalue, hdeclared, hall⟩
  | operation hother => cases hother.not_isControl
  | bridged hother | rewritten hother | leave hother => cases hother

end Transfers

section Regions

variable {env : Env} {body cleanup : Tree} {catches : List Catch} {s s' : State}

theorem Copies.sameBindings {site : State} {cleanups : List Cleanup}
    (h : Copies env site cleanups s s') (hs : s.Lexical) (hsite : site.SameBindings s) :
    site.SameBindings s' := by
  induction h with
  | done => exact hsite
  | copy _ _ hcopy _ ih =>
    have hsame := hcopy.sameBindings_inScope hs
    exact ih (hcopy.lexical hs) (hsite.trans hsame)

theorem Lowers.sameBindings_cleanups {start : Nat} (h : Lowers env (.cleanups start) s s')
    (hs : s.Lexical) : s.SameBindings s' :=
  (h.copies hs fun _ => rfl).sameBindings hs fun _ => rfl

/-- Every catch clause has a scope of its own. -/
theorem Lowers.sameBindings_clauses {start stop exit : Label} {index : Nat}
    {ranges : List (Label × Label)}
    (h : Lowers env (.clauses start stop exit index catches ranges) s s') (hs : s.Lexical) :
    s.SameBindings s' := by
  induction catches generalizing s ranges with
  | nil =>
    cases h
    exact fun _ => rfl
  | cons clause rest ih =>
    cases h with
    | @clause _ _ _ _ _ _ _ _ _ _ _ m m' _ _ hslot hbody hcleanups hrest =>
      have hinner := (State.KeepsOuter.declare hslot).trans hbody.keepsOuter
      have hclause : s.SameBindings m.exitScope := State.KeepsOuter.sameBindings hinner hs
      have hexit : m.exitScope.Lexical := (State.KeepsOuter.exitSlotScope hinner).lexical hs
      have hcopies : m.exitScope.SameBindings m' := hcleanups.sameBindings_cleanups hexit
      have hothers := ih hrest (hcleanups.lexical hexit)
      exact (hclause.trans hcopies).trans hothers

/-- The copies behind the body and in the handler are lowered under the bindings
around the region; only the handler has a hidden variable for the exception. -/
theorem Lowers.guarded_copies (h : Lowers env (.tree (.guarded body catches (some cleanup))) s s')
    (hs : s.Lexical) :
    ∃ (m m' u u' : State) (hidden : String),
      Lowers env (.inScope body) (s.enterGuarded cleanup) m ∧
      Copies env s [⟨cleanup, s.flows.length⟩] (m.emits (.bind (s.label 1))) m' ∧
      s.SameBindingsBut hidden u ∧ Lowers env (.inScope cleanup) u u' := by
  cases h with
  | @guarded _ _ _ _ _ m₁ m₂ m₃ m₄ hbody hcleanups hclauses hcatchAll =>
    have hstart : (s.enterGuarded cleanup).Lexical := hs
    have hbehind : s.SameBindings (m₁.emits (.bind (s.label 1))) :=
      hbody.sameBindings_inScope hstart
    have hlexical := hbody.lexical hstart
    have hkept : m₁.cleanups = s.cleanups ++ [⟨cleanup, s.flows.length⟩] :=
      hbody.keeps.cleanups
    have hcopies := hcleanups.copies hlexical hbehind
    have hlast : (m₁.emits (.bind (s.label 1))).cleanups.drop s.cleanups.length =
        [⟨cleanup, s.flows.length⟩] := by
      change m₁.cleanups.drop s.cleanups.length = _
      rw [hkept, List.drop_left]
    rw [hlast, List.reverse_singleton] at hcopies
    -- The handler comes behind the clauses, which bring back the bindings around the region.
    have hcopied := hcleanups.lexical hlexical
    have hclosed : s.SameBindings m₃ :=
      (hbehind.trans (hcleanups.sameBindings_cleanups hlexical)).trans
        (hclauses.sameBindings_clauses hcopied)
    have hpending : m₃.pending? (some cleanup) = some cleanup := by
      have hkept₃ : m₃.cleanups = s.cleanups ++ [⟨cleanup, s.flows.length⟩] :=
        (hclauses.keeps.cleanups.trans hcleanups.keeps.cleanups).trans hkept
      change m₃.cleanups.getLast?.map Cleanup.body = some cleanup
      rw [hkept₃, List.getLast?_concat]
      rfl
    rw [hpending] at hcatchAll
    cases hcatchAll with
    | @catchAll _ _ slot slots _ t m ht hslot hcopy =>
      have hdeclared := State.sameBindingsBut_declare hslot
      have hslots : t.slots.lookup? = m₃.slots.lookup? := by
        rw [ht]
        change ((State.emitsAll _ _).slots.pushScope).lookup? = _
        rw [State.slots_emitsAll]
        rfl
      have hhandler : s.SameBindingsBut (t.freshName "$throwable")
          (((t.takeName "$throwable").withSlots slots).emits (.setLocal slot)) := by
        intro name hne
        have hname : t.slots.lookup? name = m₃.slots.lookup? name := by rw [hslots]
        exact ((hdeclared name hne).trans hname).trans (hclosed name)
      exact ⟨m₁, m₂, _, m, _, hbody, hcopies, hhandler, hcopy⟩
  | operation hother => cases hother.not_isControl
  | bridged hother | rewritten hother | leave hother => cases hother

end Regions

namespace Lowering

/-- A region declares a variable with the name of one around it and returns. The
cleanup stores the variable of this name in a field. -/
def shadowedReturn (value : Literal) : RoutineDecl where
  owner := .object "demo.Main"
  name := "run"
  params := []
  result := .void
  isStatic := true
  body := .block
    [.declareLocal "x" .int (some (.literal (.int 1))),
     .guarded
      (.block [.declareLocal "x" value.valueType (some (.literal value)), .ret none]) []
      (some (.writeField (.object "demo.Log") "value" .int none (.readLocal "x" .int)))]

/-- The copy of the return reads the inner variable. The copies behind the body
and in the handler read the outer one; the last read is the exception itself. -/
theorem shadowedReturn_reads :
    ∃ lowered nested shared',
      routine Handlers.standard.process (shadowedReturn (.int 2)) ⟨.empty, {}⟩ .empty =
        (.ok (lowered, nested), shared') ∧
      lowered.code.chunk.instructions.filter (·.op = .getLocal) =
        [⟨7, .getLocal, .byte 1⟩, ⟨13, .getLocal, .byte 0⟩, ⟨25, .getLocal, .byte 0⟩,
          ⟨30, .getLocal, .byte 2⟩] := by
  exact exists_lowered (by decide +kernel)

/-- With an inner variable of another type the cleanup has no copy at the return,
so the routine is refused. -/
theorem shadowedReturn_refused :
    (routine Handlers.standard.process (shadowedReturn (.long 2)) ⟨.empty, {}⟩ .empty).1.isOk =
      false := by
  decide +kernel

end Lowering

end StackLowering
