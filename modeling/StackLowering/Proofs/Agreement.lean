import StackLowering.Proofs.RelatedHandlers
/-!
Lowerings that agree. In certain surroundings two steps have the same outcome, and what is
around the code is again what it was if they succeed. The settings may differ in whether
updates are fused, only some faults may arise, and some faults end the comparison.
-/

namespace StackLowering

namespace Lower

variable {α β : Type} {env : Env}

/-- The settings of the second lowering, the faults that both may end with, and those
of the first after which the second one is not considered. -/
structure Comparison (env : Env) where
  other : Env
  allowed : Fault → Prop
  ends : Fault → Prop
  nest : other.nest = env.nest
  bridges : other.options.bridges = env.options.bridges
  tables : other.options.maxTableEntries = env.options.maxTableEntries
  ordinary : ∀ fault : Fault, fault.isOrdinary = true → allowed fault
  unbound : ∀ label : Label, allowed (.unboundLabel label.id)

/-- Both lowerings have the same settings. -/
def Comparison.within (allowed : Fault → Prop)
    (ordinary : ∀ fault : Fault, fault.isOrdinary = true → allowed fault)
    (unbound : ∀ label : Label, allowed (.unboundLabel label.id)) : Comparison env where
  other := env
  allowed := allowed
  ends := fun _ => False
  nest := rfl
  bridges := rfl
  tables := rfl
  ordinary := ordinary
  unbound := unbound

/-- The outcomes of two steps from one state are the same. What is around the code is
what it was if they succeed. -/
def Comparison.Matches (C : Comparison env) (s : State) (outcome other : Except Fault α × State) :
    Prop :=
  match outcome.1 with
  | .error fault => C.ends fault ∨ other = outcome ∧ C.allowed fault
  | .ok _ => other = outcome ∧ outcome.2.flows = s.flows ∧ outcome.2.cleanups = s.cleanups

/-- A fault is passed on. -/
theorem Comparison.Matches.pass {C : Comparison env} {s t m m' : State} {fault : Fault}
    {other : Except Fault α × State} {passed : Except Fault β × State}
    (h : C.Matches s (.error fault, m) other)
    (hpassed : other = (.error fault, m) → passed = (.error fault, m')) :
    C.Matches t (.error fault, m') passed :=
  h.imp_right fun ⟨hother, hallowed⟩ => ⟨hpassed hother, hallowed⟩

theorem Comparison.Matches.eq {C : Comparison env} {s : State}
    {outcome other : Except Fault α × State} (h : C.Matches s outcome other)
    (hends : ∀ fault, outcome.1 = .error fault → ¬ C.ends fault) : other = outcome := by
  rcases outcome with ⟨fault | value, m⟩
  · exact (h.resolve_left (hends fault rfl)).1
  · exact h.1

/-- In these surroundings both steps have the same outcome. -/
def Agrees (C : Comparison env) (inside : Flows → List Cleanup → Prop)
    (first second : Lower α) : Prop :=
  ∀ s : State, inside s.flows s.cleanups → C.Matches s (first env s) (second C.other s)

namespace Agrees

variable {C : Comparison env} {inside inner : Flows → List Cleanup → Prop}
  {first second : Lower α}

theorem bind {next next' : α → Lower β} (h : Agrees C inside first second)
    (hnext : ∀ value, Yields env (fun s => inside s.flows s.cleanups) first value →
      Agrees C inside (next value) (next' value)) :
    Agrees C inside (first >>= next) (second >>= next') := by
  intro s hs
  have hfirst := h s hs
  rw [bind_apply, bind_apply]
  rcases hrun : first env s with ⟨fault | value, m⟩
  · rw [hrun] at hfirst
    exact hfirst.pass fun hother => by rw [hother]
  · rw [hrun] at hfirst
    obtain ⟨hother, hflows, hcleanups⟩ := hfirst
    -- The rest starts where the same is around the code.
    have hm : inside m.flows m.cleanups := by
      rw [hflows, hcleanups]
      exact hs
    have hrest := hnext value ⟨s, m, hs, hrun⟩ m hm
    unfold Comparison.Matches at hrest ⊢
    rw [hflows, hcleanups] at hrest
    rw [hother]
    exact hrest

theorem orFail {outcome : Except Fault α} (h : Ordinary outcome) :
    Agrees C inside (Lower.orFail outcome) (Lower.orFail outcome) := by
  intro s _
  cases outcome with
  | error fault => exact .inr ⟨rfl, C.ordinary fault (h fault rfl)⟩
  | ok value => exact ⟨rfl, rfl, rfl⟩

/-- The parts of a bracket agree where it enters them. -/
theorem bracket_apply {s : State} (enter exit : State → State) (h : Agrees C inner first second)
    (henter : inner (enter s).flows (enter s).cleanups)
    (hexit : ∀ m : State, m.flows = (enter s).flows → m.cleanups = (enter s).cleanups →
      (exit m).flows = s.flows ∧ (exit m).cleanups = s.cleanups) :
    C.Matches s (bracket enter exit first env s) (bracket enter exit second C.other s) := by
  have hinner := h (enter s) henter
  unfold Lower.bracket
  generalize first env (enter s) = outcome at hinner ⊢
  rcases outcome with ⟨fault | value, m⟩
  · exact hinner.pass fun hother => by rw [hother]
  · obtain ⟨hother, hflows, hcleanups⟩ := hinner
    rw [hother]
    exact ⟨rfl, hexit m hflows hcleanups⟩

theorem inExpression (h : Agrees C inside first second) :
    Agrees C inside (Lower.inExpression first) (Lower.inExpression second) :=
  fun _ hs => h.bracket_apply _ _ hs fun _ => .intro

theorem inStatement (h : Agrees C inside first second) :
    Agrees C inside (Lower.inStatement first) (Lower.inStatement second) :=
  fun s hs => h.bracket_apply (.withDepth 0) (.withDepth s.expressionDepth) hs fun _ => .intro

theorem inFlow (flow : Flow) (h : Agrees C inner first second)
    (hinner : ∀ {flows cleanups}, inside flows cleanups → inner (flow :: flows) cleanups) :
    Agrees C inside (Lower.inFlow flow first) (Lower.inFlow flow second) := by
  intro s hs
  have hbody := h (s.pushFlow flow) (hinner hs)
  change C.Matches s ((first >>= _) env (s.pushFlow flow)) ((second >>= _) C.other (s.pushFlow flow))
  rw [bind_apply, bind_apply]
  generalize first env (s.pushFlow flow) = outcome at hbody ⊢
  rcases outcome with ⟨fault | value, m⟩
  · exact hbody.pass fun hother => by rw [hother]
  · obtain ⟨hother, hflows, hcleanups⟩ := hbody
    rw [hother]
    exact ⟨rfl, congrArg List.tail hflows, hcleanups⟩

theorem inCleanup (body : Tree) (h : Agrees C inner first second)
    (hinner : ∀ {flows cleanups}, inside flows cleanups →
      inner flows (cleanups ++ [⟨body, flows.length⟩])) :
    Agrees C inside (Lower.inCleanup body first) (Lower.inCleanup body second) := by
  intro s hs
  have hbody := h (s.pushCleanup body) (hinner hs)
  change C.Matches s ((first >>= _) env (s.pushCleanup body))
    ((second >>= _) C.other (s.pushCleanup body))
  rw [bind_apply, bind_apply]
  generalize first env (s.pushCleanup body) = outcome at hbody ⊢
  rcases outcome with ⟨fault | value, m⟩
  · exact hbody.pass fun hother => by rw [hother]
  · obtain ⟨hother, hflows, hcleanups⟩ := hbody
    rw [hother]
    exact ⟨rfl, hflows, (congrArg List.dropLast hcleanups).trans List.dropLast_concat⟩

/-- The cleanup that is popped behind a region is the one of the region. -/
theorem body_pending (h : Agrees C inner first second) {body : Tree}
    (hinner : ∀ {flows cleanups}, inside flows cleanups →
      inner flows (cleanups ++ [⟨body, flows.length⟩])) {region : α × Option Cleanup}
    (hregion : Yields env (fun s => inside s.flows s.cleanups) (Lower.inCleanup body first) region) :
    ∀ pending ∈ region.2, pending.body = body := by
  obtain ⟨s, s', hs, hruns⟩ := hregion
  simp only [Lower.inCleanup, runs_bind, runs_modify, runs_modifyGet, runs_pure] at hruns
  obtain ⟨_, _, rfl, _, m, hfirst, _, _, hpop, rfl, _⟩ := hruns
  have hkept := h (s.pushCleanup body) (hinner hs)
  rw [hfirst] at hkept
  obtain ⟨rfl, _⟩ := Prod.mk.inj hpop
  intro pending hpending
  rw [hkept.2.2] at hpending
  cases hpending.symm.trans List.getLast?_concat
  rfl

theorem setAside (index : Nat) {action action' : List Cleanup → Lower Unit}
    (h : ∀ {flows cleanups}, inside flows cleanups → ∃ inner : Flows → List Cleanup → Prop,
      inner flows (cleanups.take index) ∧
        Agrees C inner (action (cleanups.drop index)) (action' (cleanups.drop index))) :
    Agrees C inside (Lower.setAside index action) (Lower.setAside index action') := by
  intro s hs
  obtain ⟨inner, henter, hagrees⟩ := h hs
  refine hagrees.bracket_apply (fun _ => (s.takeCleanups index).2)
    (.restoreCleanups (s.cleanups.drop index)) henter fun m hflows hcleanups => ?_
  refine ⟨hflows, ?_⟩
  rw [State.restoreCleanups, hcleanups]
  exact List.take_append_drop _ _

end Agrees

/-- Agreeing is a relation between lowerings. -/
def agreeing (C : Comparison env) (inside : Flows → List Cleanup → Prop)
    (hflow : ∀ {flows cleanups} (flow : Flow), inside flows cleanups →
      inside (flow :: flows) cleanups) : Congruence env fun s => inside s.flows s.cleanups where
  Rel := Agrees C inside
  Faults := fun fault fault' => fault = fault' ∧ C.allowed fault
  faults := fun fault h => ⟨rfl, C.ordinary fault h⟩
  pure := fun _ _ _ => ⟨rfl, rfl, rfl⟩
  throw := by
    rintro _ fault _ ⟨rfl, hallowed⟩ s _
    exact .inr ⟨rfl, hallowed⟩
  bind := .bind
  get := fun _ hnext s hs => hnext s s hs (.refl s) s hs
  nest := fun s _ => ⟨congrArg (fun nest => (Except.ok nest, s)) C.nest, rfl, rfl⟩
  tableLimit := fun s _ => ⟨congrArg (fun limit => (Except.ok limit, s)) C.tables, rfl, rfl⟩
  emit := fun _ _ _ _ => ⟨rfl, rfl, rfl⟩
  newLabel := fun _ _ => ⟨rfl, rfl, rfl⟩
  uniqueName := fun _ _ _ => ⟨rfl, rfl, rfl⟩
  inFlow := fun flow _ _ h => h.inFlow flow (hflow flow)
  withScope := fun h _ hs => h.bracket_apply _ _ hs fun _ => .intro
  withSlotScope := fun h _ hs => h.bracket_apply _ _ hs fun _ => .intro

variable {C : Comparison env} {inside : Flows → List Cleanup → Prop}
  {hflow : ∀ {flows cleanups} (flow : Flow), inside flows cleanups →
    inside (flow :: flows) cleanups}

theorem plain_agreeing : (agreeing C inside hflow).Plain where
  around := fun h => h
  declare := fun name ty => Agrees.bind (fun _ _ => ⟨rfl, rfl, rfl⟩)
    fun outcome ⟨s, _, _, hrun⟩ => by
      have houtcome : (s.slots.declare name ty).1 = outcome :=
        congrArg (fun result : _ × State => result.1.toOption.getD (.ok 0)) hrun
      rw [← houtcome]
      exact .orFail (s.slots.ordinary_declare name ty)
  require := fun name ty tree s hs =>
    Agrees.orFail (s.slots.ordinary_require name ty tree) s hs
  reserve := fun _ _ _ => ⟨rfl, rfl, rfl⟩
  bridged := fun access s _ => by
    have hother : s.bridged C.other access = s.bridged env access := by
      rw [State.bridged, State.bridged, C.bridges, C.nest]
    have happly (env : Env) : bridged access env s =
        (.ok (s.bridged env access).1, (s.bridged env access).2) := rfl
    rw [happly, happly, hother]
    rcases hbridged : s.bridged env access with ⟨use, m⟩
    obtain ⟨bridges, rfl⟩ := State.bridged_keeps hbridged
    exact ⟨rfl, rfl, rfl⟩

theorem exact_agreeing (hregion : ∀ {flows cleanups} (body : Tree), inside flows cleanups →
      inside flows (cleanups ++ [⟨body, flows.length⟩]))
    (hcopy : ∀ {flows cleanups} (count : Nat), inside flows cleanups →
      inside flows (cleanups.take count)) : (agreeing C inside hflow).Exact where
  toPlain := plain_agreeing
  inCleanup := fun body _ _ h => Agrees.inCleanup body h (hregion body)
  setAside := fun index _ _ h => Agrees.setAside index fun hs => ⟨_, hcopy index hs, h _⟩

theorem Agrees.discard (ty : Ty) : Agrees C inside (Lower.discard ty) (Lower.discard ty) := by
  intro s _
  refine ⟨rfl, ?_⟩
  change (s.discard ty).flows = s.flows ∧ (s.discard ty).cleanups = s.cleanups
  unfold State.discard
  split_ifs <;> exact ⟨rfl, rfl⟩

/-- A routine declared in a body is lowered with nothing around it. -/
theorem Agrees.localRoutine {recur recur' : Recur} {method : Method}
    (inner : Flows → List Cleanup → Prop) (hinner : inner [] [])
    (h : ∀ owner, ∀ decl ∈ RoutineDecl.ofMethod? owner method,
      Agrees C inner (Lowering.routineBody recur decl) (Lowering.routineBody recur' decl)) :
    Agrees C inside (Lowering.localRoutine recur method) (Lowering.localRoutine recur' method) := by
  intro s _
  cases hdecl : RoutineDecl.ofMethod? s.currentType method with
  | none =>
    rw [Lowering.localRoutine_apply_bodiless hdecl, Lowering.localRoutine_apply_bodiless hdecl]
    exact ⟨rfl, rfl, rfl⟩
  | some decl =>
    have hbody := h _ decl hdecl (.initial env.nest s.shared decl.info) hinner
    rw [Lowering.localRoutine_apply hdecl, Lowering.localRoutine_apply hdecl]
    rcases hrun : Lowering.routineBody recur decl env (.initial env.nest s.shared decl.info) with
      ⟨fault | _, t⟩
    · have hfails : Lowering.routine recur decl env s.shared = (.error fault, t.shared) := by
        rw [Lowering.routine, hrun]
        rfl
      rw [hrun] at hbody
      rw [hfails]
      refine hbody.pass fun hother => ?_
      rw [Lowering.routine, C.nest, hother]
      rfl
    · rw [hrun] at hbody
      have hsame : Lowering.routine recur' decl C.other s.shared =
          Lowering.routine recur decl env s.shared := by
        rw [Lowering.routine, Lowering.routine, C.nest, hbody.1, hrun]
      have hfinish : FailsWith C.allowed t.finish := fun fault hfault => by
        rcases t.failsWith_finish fault hfault with hordinary | ⟨label, _, _, rfl⟩
        · exact C.ordinary fault hordinary
        · exact C.unbound label
      have hfails : FailsWith C.allowed (Lowering.routine recur decl env s.shared).1 := by
        rw [Lowering.routine, hrun]
        exact hfinish.bind fun _ => .ok _
      rw [hsame]
      generalize Lowering.routine recur decl env s.shared = outcome at hfails ⊢
      rcases outcome with ⟨fault | ⟨lowered, nested⟩, shared⟩
      · exact .inr ⟨rfl, hfails fault rfl⟩
      · exact ⟨rfl, rfl, rfl⟩

/-- Handlers agree on a tree, whatever is around it. -/
theorem Agrees.tree {recur recur' : Recur} {node : Tree}
    (hoptions : ∀ name ty value, node = .assignLocal name ty value →
      Agrees C (fun _ _ => True) Lower.options Lower.options)
    (h : ∀ tree, Agrees C (fun _ _ => True) (recur tree) (recur' tree)) :
    Agrees C (fun _ _ => True) (Lowering.tree recur node) (Lowering.tree recur' node) := by
  have hexact : (agreeing C (fun _ _ => True) fun _ => id).Exact :=
    exact_agreeing (fun _ => id) fun _ => id
  have hrelated : Recur.Related (agreeing C (fun _ _ => True) fun _ => id) Eq recur recur' :=
    .of_exact hexact (fun tree => (h tree).inExpression) fun tree => (h tree).inStatement
  have hdiscard (ty : Ty) : Agrees C (fun _ _ => True) (Lower.discard ty) (Lower.discard ty) :=
    .discard ty
  have hlocal (method : Method) : Agrees C (fun _ _ => True) (Lowering.localRoutine recur method)
      (Lowering.localRoutine recur' method) :=
    .localRoutine (fun _ _ => True) trivial fun _ decl _ =>
      hrelated.routineBody hexact.toPlain decl rfl
  exact hrelated.tree hexact hoptions hdiscard h fun method _ => hlocal method

end Lower

end StackLowering
