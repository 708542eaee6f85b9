import StackLowering.Proofs.CleanupCopies
import StackLowering.Proofs.CleanupNesting
/-!
Where transfers in the copies of a cleanup lead. A copy that a transfer runs is
lowered with the loops and switches around the transfer; the copies behind the
body and in the handler with those around the region. So a transfer in a cleanup
goes to the same place in both copies if no loop or switch between the region and
the transfer that runs the copy takes it, and only then.
-/

namespace StackLowering

open Lower

namespace Flows

variable {inner outer flows : Flows} {p : Flow → Bool}

theorem find?_append (inner outer : Flows) (p : Flow → Bool) :
    Flows.find? p (inner ++ outer) =
      ((inner.find? p).map fun found => (outer.length + found.1, found.2)).or (outer.find? p) := by
  induction inner with
  | nil => rfl
  | cons flow inner ih =>
    rw [List.cons_append, find?, find?]
    split_ifs
    · rw [List.length_append, Nat.add_comm]
      rfl
    · exact ih

theorem find?_lt {k : Nat} {flow : Flow} (h : flows.find? p = some (k, flow)) :
    k < flows.length := by
  induction flows with
  | nil => cases h
  | cons first rest ih =>
    rw [find?] at h
    split_ifs at h
    · cases h
      exact Nat.lt_succ_self _
    · exact (ih h).trans (Nat.lt_succ_self _)

/-- Which records a transfer goes to, and the label there. -/
def takes? : Tree → Option ((Flow → Bool) × (Flow → Label))
  | .breakTo label => some (fun flow => label.isNone || flow.label == label, Flow.exit)
  | .continueTo label =>
    some (fun flow => flow.kind == .loop && (label.isNone || flow.label == label), Flow.bodyExit)
  | .redirect => some (fun flow => flow.kind == .switch, Flow.bodyExit)
  | _ => none

/-- Where a transfer leads from inside of the given loops and switches: the index
of one of them, and the label. -/
def target? (flows : Flows) (tree : Tree) : Option (Nat × Label) :=
  (takes? tree).bind fun rule => (flows.find? rule.1).map fun found => (found.1, rule.2 found.2)

theorem target?_append (inner outer : Flows) (tree : Tree) :
    Flows.target? (inner ++ outer) tree =
      ((inner.target? tree).map fun found => (outer.length + found.1, found.2)).or
        (outer.target? tree) := by
  unfold target?
  cases takes? tree with
  | none => rfl
  | some rule =>
    rw [Option.bind_some, Option.bind_some, Option.bind_some, find?_append]
    cases inner.find? rule.1 with
    | none => rfl
    | some found => rfl

theorem target?_lt {tree : Tree} {found : Nat × Label} (h : flows.target? tree = some found) :
    found.1 < flows.length := by
  obtain ⟨rule, _, hfound⟩ := Option.bind_eq_some_iff.mp h
  obtain ⟨record, hrecord, rfl⟩ := Option.map_eq_some_iff.mp hfound
  exact find?_lt hrecord

theorem target?_append_of_none {tree : Tree} (h : inner.target? tree = none) :
    Flows.target? (inner ++ outer) tree = outer.target? tree := by
  rw [target?_append, h]
  rfl

theorem target?_append_of_some {tree : Tree} {k : Nat} {label : Label}
    (h : inner.target? tree = some (k, label)) :
    Flows.target? (inner ++ outer) tree = some (outer.length + k, label) := by
  rw [target?_append, h]
  rfl

end Flows

/-- A transfer leads to the target that is looked up in the records around it. -/
theorem leaves_iff {s : State} {tree : Tree} {k : Nat} {target : Label} :
    Leaves s tree k target ↔ s.flows.target? tree = some (k, target) := by
  constructor
  · intro h
    cases h with
    | breakTo hflow | continueTo hflow | redirect hflow =>
      exact Option.map_eq_some_iff.mpr ⟨_, hflow, rfl⟩
  · intro h
    obtain ⟨rule, hrule, hfound⟩ := Option.bind_eq_some_iff.mp h
    obtain ⟨record, hrecord, heq⟩ := Option.map_eq_some_iff.mp hfound
    cases heq
    cases tree with
    | breakTo label =>
      cases hrule
      exact .breakTo hrecord
    | continueTo label =>
      cases hrule
      exact .continueTo hrecord
    | redirect =>
      cases hrule
      exact .redirect hrecord
    | _ => cases hrule

section Copies

variable {env : Env} {recur : Recur} {s s' t t' : State}

theorem Inlines.flows_of_mem (hrecur : Derives env recur) {below cleanups : List Cleanup}
    (h : Inlines env recur below cleanups t t') {c : Cleanup} (hc : c ∈ cleanups) :
    ∃ u u', u.flows = t.flows ∧ Runs (recur.inScope c.body) env u () u' := by
  induction h with
  | done => exact absurd hc List.not_mem_nil
  | @copy first rest t m t' hcopy _ ih =>
    rcases List.mem_cons.mp hc with rfl | hc
    · exact ⟨{ t with cleanups := below ++ rest.reverse }, m, rfl, hcopy⟩
    · have hkept : m.flows = t.flows := (hrecur.inScope hcopy).keeps.flows
      obtain ⟨u, u', hu, hruns⟩ := ih hc
      exact ⟨u, u', hu.trans hkept, hruns⟩

/-- The copies behind the body and in the handler are lowered with the loops and
switches around the region. -/
theorem Lowers.guarded_flows {body cleanup : Tree} {catches : List Catch}
    (h : Lowers env (.tree (.guarded body catches (some cleanup))) s s') :
    ∃ m u u' v v' : State, Lowers env (.inScope body) (s.enterGuarded cleanup) m ∧
      u = { m.emits (.bind (s.label 1)) with cleanups := s.cleanups } ∧
      u.flows = s.flows ∧ Lowers env (.inScope cleanup) u u' ∧
      v.flows = s.flows ∧ Lowers env (.inScope cleanup) v v' := by
  cases h with
  | @guarded _ _ _ _ _ m₁ m₂ m₃ m₄ hbody hcleanups hclauses hcatchAll =>
    have hflows : m₁.flows = s.flows := hbody.keeps.flows
    have hkept : m₁.cleanups = s.cleanups ++ [⟨cleanup, s.flows.length⟩] :=
      hbody.keeps.cleanups
    obtain ⟨u', hcopy, _⟩ := hcleanups.innermost_first hkept (Nat.le_refl _)
    -- The handler comes behind the clauses, with nothing more around it.
    have hclosed := (hcleanups.keeps.emits _).trans hclauses.keeps
    have hpending : m₃.pending? (some cleanup) = some cleanup := by
      change m₃.cleanups.getLast?.map Cleanup.body = some cleanup
      rw [hclosed.cleanups]
      change m₁.cleanups.getLast?.map Cleanup.body = some cleanup
      rw [hkept, List.getLast?_concat]
      rfl
    rw [hpending] at hcatchAll
    cases hcatchAll with
    | @catchAll _ _ slot slots _ t v' ht hslot hhandler =>
      have hopens : (m₃.popCleanup? (some cleanup)).Keeps t := by
        rw [ht]
        exact (((State.Keeps.refl _).newLabels 1).emitsAll _).onSlots _
      have hhandlers : t.flows = s.flows := hopens.flows.trans (hclosed.flows.trans hflows)
      refine ⟨m₁, _, u', _, v', hbody, rfl, hflows, hcopy, ?_, hhandler⟩
      exact hhandlers
  | operation hother => cases hother.not_isControl
  | bridged hother | rewritten hother | leave hother => cases hother

/-- A loop or switch around one of two places that are otherwise alike takes a
transfer there, or else it leads to the same target from both. -/
theorem same_target_or_captured {v w : State} {own inner outer : Flows} {leave : Tree}
    (hv : v.flows = own ++ (inner ++ outer)) (hw : w.flows = own ++ outer)
    (hown : own.target? leave = none) :
    (inner.target? leave = none ∧ ∀ k label, Leaves v leave k label ↔ Leaves w leave k label) ∨
      ∃ k label, inner.target? leave = some (k, label) ∧ Leaves v leave (outer.length + k) label ∧
        ∀ label', ¬ Leaves w leave (outer.length + k) label' := by
  simp only [leaves_iff, hv, hw, Flows.target?_append_of_none hown]
  cases hinner : inner.target? leave with
  | none =>
    left
    refine ⟨rfl, fun k label => ?_⟩
    rw [Flows.target?_append_of_none hinner]
  | some found =>
    right
    refine ⟨found.1, found.2, rfl, Flows.target?_append_of_some hinner, fun label' houter => ?_⟩
    -- What an inner record takes does not lead to an outer one.
    have hlt : outer.length + found.1 < outer.length := Flows.target?_lt houter
    omega

/-- Inside the body of a region, a transfer runs copies of cleanups. A transfer
`leave` in such a copy, inside the loops and switches `own` of the cleanup, leads to
the target it has in the copy behind the body, unless a loop or switch between the
region and the first transfer captures it. -/
theorem copy_same_target_or_captured {start : Nat} {cleanup : Tree}
    (hinside : Within (s.regionBody cleanup).flows (s.regionBody cleanup).cleanups t.flows
      t.cleanups)
    (hrecur : Derives env recur) (hcopies : Runs (Lowering.inlineCleanups recur start) env t () t')
    {c : Cleanup} (hc : c ∈ t.cleanups.drop start) :
    ∃ (inner : Flows) (u u' : State), t.flows = inner ++ s.flows ∧ u.flows = t.flows ∧
      Runs (recur.inScope c.body) env u () u' ∧
      ∀ (own : Flows) (leave : Tree) (v w : State), own.target? leave = none →
        v.flows = own ++ u.flows → w.flows = own ++ s.flows →
        (inner.target? leave = none ∧
          ∀ k label, Leaves v leave k label ↔ Leaves w leave k label) ∨
        ∃ k label, inner.target? leave = some (k, label) ∧
          Leaves v leave (s.flows.length + k) label ∧
          ∀ label', ¬ Leaves w leave (s.flows.length + k) label' := by
  obtain ⟨inner, hinner⟩ := hinside.suffix
  have hinlines := (runs_inlineCleanups hrecur).mp hcopies
  obtain ⟨u, u', hu, hruns⟩ := hinlines.flows_of_mem hrecur (List.mem_reverse.mpr hc)
  refine ⟨inner, u, u', hinner.symm, hu, hruns, fun own leave v w hown hv hw => ?_⟩
  have hflows : v.flows = own ++ (inner ++ s.flows) := by
    rw [hv, hu, ← hinner]
    rfl
  exact same_target_or_captured hflows hw hown

end Copies

namespace Lowering

/-- A loop around a region, whose body returns from inside another loop and whose
cleanup breaks. -/
def breakingCleanup : RoutineDecl where
  owner := .object "demo.Main"
  name := "run"
  params := [⟨"flag", .bool⟩]
  result := .void
  isStatic := true
  body := .whileLoop none (.readLocal "flag" .bool)
    (.guarded (.whileLoop none (.readLocal "flag" .bool) (.ret none) false) []
      (some (.breakTo none))) false

/-- The break in the copy of the return only leaves the inner loop, whose exit is
at 23. In the copies behind the body, at 23, and in the handler, at 35, it leaves the
outer loop. -/
theorem breakingCleanup_targets :
    ∃ lowered nested shared',
      routine Handlers.standard.process breakingCleanup ⟨.empty, {}⟩ .empty =
        (.ok (lowered, nested), shared') ∧
      lowered.code.chunk.instructions.filter (·.op = .jump) =
        [⟨0, .jump, .jump 43⟩, ⟨5, .jump, .jump 16⟩, ⟨10, .jump, .jump 23⟩,
          ⟨23, .jump, .jump 50⟩, ⟨28, .jump, .jump 43⟩, ⟨35, .jump, .jump 50⟩] := by
  exact exists_lowered (by decide +kernel)

end Lowering

end StackLowering
