import StackLowering.Proofs.Blocks
/-!
What a switch over ints executes. A body that completes falls into the body under
the next larger key, and the last one into the default. An arm that only redirects
has no body in the code. So a body in front of it falls past it into the next
body, although the arm would go to the default if it was dispatched to.
-/

namespace StackLowering.Switch

variable {W : Type}

/-- How a body ends. -/
inductive BodyEnd (W : Type) where
  | falls (world : W)
  | redirects (world : W)
  | leaves (config : Config W)

/-- Where control is when a body has ended, if it completes at `stop`. -/
def BodyEnd.config (stack : List Int32) (otherwise stop : Nat) : BodyEnd W → Config W
  | falls world => ⟨stop, stack, world⟩
  | redirects world => ⟨otherwise, stack, world⟩
  | leaves config => config

/-- The bodies that are executed from the first arm on, and how the last one ends.
The relation `ends` tells how the body under a key ends; `none` stands for the
default. -/
inductive Course (ends : Option Int32 → W → BodyEnd W → Prop) :
    List (Int32 × Tree) → W → List (Option Int32) → BodyEnd W → Prop
  | default {world : W} {last : BodyEnd W} (hends : ends none world last) :
      Course ends [] world [none] last
  | redirect {key : Int32} {body : Tree} {rest : List (Int32 × Tree)} {world : W}
      {bodies : List (Option Int32)} {last : BodyEnd W} (hbare : body.isPureRedirect = true)
      (hdefault : Course ends [] world bodies last) :
      Course ends ((key, body) :: rest) world bodies last
  | falls {key : Int32} {body : Tree} {rest : List (Int32 × Tree)} {world world' : W}
      {bodies : List (Option Int32)} {last : BodyEnd W} (hbody : body.isPureRedirect = false)
      (hends : ends (some key) world (.falls world'))
      (hrest : Course ends rest world' bodies last) :
      Course ends ((key, body) :: rest) world (some key :: bodies) last
  | redirects {key : Int32} {body : Tree} {rest : List (Int32 × Tree)} {world world' : W}
      {bodies : List (Option Int32)} {last : BodyEnd W} (hbody : body.isPureRedirect = false)
      (hends : ends (some key) world (.redirects world'))
      (hdefault : Course ends [] world' bodies last) :
      Course ends ((key, body) :: rest) world (some key :: bodies) last
  | leaves {key : Int32} {body : Tree} {rest : List (Int32 × Tree)} {world : W}
      {config : Config W} (hbody : body.isPureRedirect = false)
      (hends : ends (some key) world (.leaves config)) :
      Course ends ((key, body) :: rest) world [some key] (.leaves config)

/-- The arms from the one with the key on, none if there is no such arm. -/
def fromKey (key : Int32) (arms : List (Int32 × Tree)) : List (Int32 × Tree) :=
  arms.dropWhile (·.1 != key)

/-- The arms that have code of their own. -/
def coded (arms : List (Int32 × Tree)) : List (Int32 × Tree) := arms.filter (!·.2.isPureRedirect)

section Lists

variable {key : Int32} {arm : Int32 × Tree} {arms : List (Int32 × Tree)}

theorem fromKey_cons_self {body : Tree} : fromKey key ((key, body) :: arms) = (key, body) :: arms :=
  List.dropWhile_cons_of_neg (by simp)

theorem fromKey_cons_of_ne (h : arm.1 ≠ key) : fromKey key (arm :: arms) = fromKey key arms :=
  List.dropWhile_cons_of_pos (by simpa using h)

theorem fromKey_eq_nil (h : ∀ other ∈ arms, other.1 ≠ key) : fromKey key arms = [] :=
  List.dropWhile_eq_nil_iff.mpr fun other hmem => by simpa using h other hmem

theorem coded_cons_of_own (h : arm.2.isPureRedirect = false) :
    coded (arm :: arms) = arm :: coded arms :=
  List.filter_cons_of_pos (by simp [h])

theorem coded_cons_of_bare (h : arm.2.isPureRedirect = true) : coded (arm :: arms) = coded arms :=
  List.filter_cons_of_neg (by simp [h])

end Lists

/-- A body directly in front of an arm that only redirects does not complete. -/
def NeverFallsIntoRedirect (ends : Option Int32 → W → BodyEnd W → Prop)
    (arms : List (Int32 × Tree)) : Prop :=
  arms.IsChain fun arm next => arm.2.isPureRedirect = false → next.2.isPureRedirect = true →
    ∀ world world', ¬ ends (some arm.1) world (.falls world')

namespace Course

variable {ends : Option Int32 → W → BodyEnd W → Prop} {arms : List (Int32 × Tree)} {world : W}
  {bodies : List (Option Int32)} {last : BodyEnd W}

/-- From a body on, arms that only redirect play no part if no body falls into them. -/
theorem coded (h : Course ends arms world bodies last) (hfalls : NeverFallsIntoRedirect ends arms)
    (hown : ∀ arm ∈ arms.head?, arm.2.isPureRedirect = false) :
    Course ends (coded arms) world bodies last := by
  induction h with
  | default hends => exact .default hends
  | redirect hbare =>
    have hbody := hown _ rfl
    rw [hbare] at hbody
    cases hbody
  | @falls key body rest world world' bodies last hbody hends _ ih =>
    rw [coded_cons_of_own hbody]
    have hnext : ∀ arm ∈ rest.head?, arm.2.isPureRedirect = false := by
      intro next hmem
      by_contra hbare
      exact List.isChain_cons.mp hfalls |>.1 next hmem hbody (by simpa using hbare) world world'
        hends
    exact .falls hbody hends (ih hfalls.of_cons hnext)
  | redirects hbody hends hdefault =>
    rw [coded_cons_of_own hbody]
    exact .redirects hbody hends hdefault
  | leaves hbody hends =>
    rw [coded_cons_of_own hbody]
    exact .leaves hbody hends

/-- Dispatching included. -/
theorem fromKey_coded {key : Int32} (h : Course ends (fromKey key arms) world bodies last)
    (hfalls : NeverFallsIntoRedirect ends arms) (hkeys : (arms.map Prod.fst).Nodup) :
    Course ends (fromKey key (Switch.coded arms)) world bodies last := by
  induction arms with
  | nil => exact h
  | cons arm rest ih =>
    obtain ⟨hnot, hrest⟩ := List.nodup_cons.mp hkeys
    obtain ⟨other, body⟩ := arm
    by_cases hkey : other = key
    · subst hkey
      rw [fromKey_cons_self] at h
      cases hbare : body.isPureRedirect with
      | false =>
        have hcoded := h.coded hfalls fun arm hmem => by
          obtain rfl := Option.some.inj hmem
          exact hbare
        rw [coded_cons_of_own hbare] at hcoded ⊢
        rwa [fromKey_cons_self]
      | true =>
        have hnil : fromKey other (Switch.coded rest) = [] := by
          apply fromKey_eq_nil
          intro arm hmem heq
          exact hnot (List.mem_map.mpr ⟨arm, List.mem_of_mem_filter hmem, heq⟩)
        rw [coded_cons_of_bare hbare, hnil]
        cases h with
        | redirect _ hdefault => exact hdefault
        | _ => simp_all
    · rw [fromKey_cons_of_ne hkey] at h
      have hcoded := ih h hfalls.of_cons hrest
      cases hbare : body.isPureRedirect with
      | false => rwa [coded_cons_of_own hbare, fromKey_cons_of_ne hkey]
      | true => rwa [coded_cons_of_bare hbare]

end Course

/-- The code in the block does what `ends` tells. -/
def Ends (step : Config W → Option (Config W)) (stack : List Int32) (otherwise : Nat)
    (ends : W → BodyEnd W → Prop) (block : Block) : Prop :=
  ∀ world last, ends world last →
    Pass step block ⟨block.start, stack, world⟩ (last.config stack otherwise block.stop)

/-- The blocks follow each other from one offset to another. -/
def Adjoins : Nat → List Block → Nat → Prop
  | start, [], stop => start = stop
  | start, block :: rest, stop =>
    block.start = start ∧ start ≤ block.stop ∧ Adjoins block.stop rest stop

variable {blocks : List Block}

theorem Adjoins.le {start stop : Nat} (h : Adjoins start blocks stop) :
    start ≤ stop ∧ ∀ block ∈ blocks, start ≤ block.start := by
  induction blocks generalizing start with
  | nil => exact ⟨Nat.le_of_eq h, List.forall_mem_nil _⟩
  | cons block rest ih =>
    obtain ⟨rfl, hle, hrest⟩ := h
    obtain ⟨hstop, hstarts⟩ := ih hrest
    refine ⟨hle.trans hstop, List.forall_mem_cons.mpr ⟨le_rfl, fun other hmem => ?_⟩⟩
    exact hle.trans (hstarts other hmem)

section Code

variable {step : Config W → Option (Config W)} {stack : List Int32}
  {ends : Option Int32 → W → BodyEnd W → Prop} {otherwise exit : Nat} {all : List Block}
  {keys : List Int32}

variable (step stack ends otherwise exit all keys) in
/-- From the block at `index` on, which starts at `start`, there is the code of the
arms, and behind it the code of the default. The arms start as listed. -/
inductive Placed : Nat → List (Int32 × Tree) → List (Int32 × Nat) → Nat → Prop
  | default {index : Nat} (hblock : all[index]? = some ⟨otherwise, exit⟩)
      (hkey : keys[index]? = none)
      (hends : Ends step stack otherwise (ends none) ⟨otherwise, exit⟩) :
      Placed index [] [] otherwise
  | arm {index start stop : Nat} {key : Int32} {body : Tree} {rest : List (Int32 × Tree)}
      {starts : List (Int32 × Nat)} (hblock : all[index]? = some ⟨start, stop⟩)
      (hkey : keys[index]? = some key)
      (hends : Ends step stack otherwise (ends (some key)) ⟨start, stop⟩)
      (hown : body.isPureRedirect = false) (hrest : Placed (index + 1) rest starts stop) :
      Placed index ((key, body) :: rest) ((key, start) :: starts) start

/-- A walk through bodies, in terms of their keys. -/
def Executes (step : Config W → Option (Config W)) (all : List Block) (keys : List Int32)
    (config : Config W) (bodies : List (Option Int32)) (last : Config W) : Prop :=
  ∃ passed, Walk step all config passed last ∧ passed.map (keys[·]?) = bodies

theorem Executes.cons {config next last : Config W} {bodies : List (Option Int32)} {index : Nat}
    {block : Block} (h : Executes step all keys next bodies last)
    (hblock : all[index]? = some block) (hstart : config.pc = block.start)
    (hpass : Pass step block config next) :
    Executes step all keys config (keys[index]? :: bodies) last := by
  obtain ⟨passed, hwalk, rfl⟩ := h
  exact ⟨index :: passed, .block hblock hstart hpass hwalk, rfl⟩

theorem Executes.done (config : Config W) : Executes step all keys config [] config :=
  ⟨[], .done, rfl⟩

theorem Executes.instruction {config next last : Config W} {bodies : List (Option Int32)}
    (h : Executes step all keys next bodies last)
    (hout : ∀ block ∈ all, ¬ block.Contains config.pc) (hstep : step config = some next) :
    Executes step all keys config bodies last := by
  obtain ⟨passed, hwalk, hbodies⟩ := h
  exact ⟨passed, .instruction hout hstep hwalk, hbodies⟩

namespace Placed

variable {index start : Nat} {arms : List (Int32 × Tree)} {starts : List (Int32 × Nat)} {world : W}
  {bodies : List (Option Int32)} {last : BodyEnd W}

theorem exists_default
    (h : Placed step stack ends otherwise exit all keys index arms starts start) :
    ∃ behind, Placed step stack ends otherwise exit all keys behind [] [] otherwise := by
  induction h with
  | default hblock hkey hends => exact ⟨_, .default hblock hkey hends⟩
  | arm _ _ _ _ _ ih => exact ih

/-- The code of arms executes their bodies. -/
theorem executes (h : Placed step stack ends otherwise exit all keys index arms starts start)
    (hcourse : Course ends arms world bodies last) :
    Executes step all keys ⟨start, stack, world⟩ bodies (last.config stack otherwise exit) := by
  induction hcourse generalizing index starts start with
  | default hends =>
    cases h with
    | default hblock hkey hcode =>
      rw [← hkey]
      exact (Executes.done _).cons hblock rfl (hcode _ _ hends)
  | redirect hbare =>
    cases h with
    | arm _ _ _ hown =>
      rw [hbare] at hown
      cases hown
  | falls _ hends _ ih =>
    cases h with
    | arm hblock hkey hcode _ hrest =>
      rw [← hkey]
      exact (ih hrest).cons hblock rfl (hcode _ _ hends)
  | redirects _ hends _ ih =>
    obtain ⟨behind, hdefault⟩ := h.exists_default
    cases h with
    | arm hblock hkey hcode =>
      rw [← hkey]
      exact (ih hdefault).cons hblock rfl (hcode _ _ hends)
  | leaves _ hends =>
    cases h with
    | arm hblock hkey hcode =>
      rw [← hkey]
      exact (Executes.done _).cons hblock rfl (hcode _ _ hends)

/-- The code is entered where the arm with the key starts, or else at the default. -/
theorem exists_fromKey (key : Int32)
    (h : Placed step stack ends otherwise exit all keys index arms starts start) :
    ∃ entered later, Placed step stack ends otherwise exit all keys entered (fromKey key arms) later
      ((starts.lookup key).getD otherwise) := by
  induction h with
  | default hblock hkey hends => exact ⟨_, _, .default hblock hkey hends⟩
  | @arm index start stop other body rest starts hblock hkey hends hown hrest ih =>
    by_cases heq : other = key
    · subst heq
      rw [fromKey_cons_self, List.lookup_cons_self]
      exact ⟨_, _, .arm hblock hkey hends hown hrest⟩
    · rw [fromKey_cons_of_ne heq, List.lookup_cons, beq_eq_false_iff_ne.mpr (Ne.symm heq)]
      exact ih

end Placed

/-- Blocks of arms with the block of the default behind them. -/
theorem placed_of_adjoins {arms : List (Int32 × Tree)} {start : Nat} (before : List Block)
    (names : List Int32) (hlength : names.length = before.length)
    (hown : ∀ arm ∈ arms, arm.2.isPureRedirect = false)
    (hends : List.Forall₂ (fun arm => Ends step stack otherwise (ends (some arm.1))) arms blocks)
    (hdefault : Ends step stack otherwise (ends none) ⟨otherwise, exit⟩)
    (hadjoins : Adjoins start blocks otherwise) :
    Placed step stack ends otherwise exit (before ++ (blocks ++ [⟨otherwise, exit⟩]))
      (names ++ arms.map Prod.fst) before.length arms
      (arms.zipWith (fun arm block => (arm.1, block.start)) blocks) start := by
  induction hends generalizing before names start with
  | nil =>
    obtain rfl := hadjoins
    refine .default ?_ ?_ hdefault
    · simp
    · simp [hlength]
  | @cons arm block rest blocks hcode _ ih =>
    obtain ⟨hbody, hrest⟩ := List.forall_mem_cons.mp hown
    obtain ⟨rfl, _, hadjoins⟩ := hadjoins
    refine .arm ?_ ?_ hcode hbody ?_
    · simp
    · simp [← hlength]
    · have hplaced := ih (before ++ [block]) (names ++ [arm.1]) (by simp [hlength]) hrest hadjoins
      simpa using hplaced

end Code

open Lower

variable {env : Env} {recur : Recur} {s s' : State}

/-- The block holds the code of a body that is lowered on the way from `s` to `s'`. -/
def Spans (env : Env) (recur : Recur) (s s' : State) (body : Tree) (block : Block) : Prop :=
  ∃ (label : Label) (m m' : State), s.Leads m ∧
    Runs (recur.inScope body) env (m.emits (.bind label)) () m' ∧ m'.Leads s' ∧
    block = ⟨m.offset, m'.offset⟩

theorem Spans.mono {m m' : State} {body : Tree} {block : Block}
    (h : Spans env recur m m' body block) (hbefore : s.Leads m) (hafter : m'.Leads s') :
    Spans env recur s s' body block := by
  obtain ⟨label, k, k', hfirst, hruns, hlast, rfl⟩ := h
  exact ⟨label, k, k', hbefore.trans hfirst, hruns, hlast.trans hafter, rfl⟩

/-- The bodies of the cases follow each other. -/
theorem Layout.exists_blocks {image : Image} {cases : List Case} {starts : List (Int32 × Nat)}
    (h : Layout env recur cases starts s s') (hrecur : Derives env recur)
    (hpending : ∀ case ∈ cases, s.Pending case.label) (hlabels : (cases.map Case.label).Nodup)
    (hs : image.Passes s) (hs' : image.Passes s') :
    ∃ blocks, List.Forall₂ (fun case => Spans env recur s s' case.body) cases blocks ∧
      starts = cases.zipWith (fun case block => (case.key, block.start)) blocks ∧
      Adjoins s.offset blocks s'.offset := by
  induction h with
  | nil => exact ⟨[], .nil, rfl, rfl⟩
  | @cons case rest starts s m s' hbody hrest ih =>
    have hlater := pending_tail hrecur hbody hpending hlabels
    have hcase := State.Leads.bind (hpending case List.mem_cons_self)
    have hlowered := hcase.trans ((hrecur.inScope hbody).leads rfl)
    have hleads := hrest.leads hrecur hlater hlabels.of_cons
    have hm := hs.between hs' hlowered hleads
    obtain ⟨blocks, hspans, rfl, hadjoins⟩ := ih hlater hlabels.of_cons hm hs'
    refine ⟨⟨s.offset, m.offset⟩ :: blocks, .cons ?_ ?_, rfl, rfl, hs.offset_le hm hlowered,
      hadjoins⟩
    · exact ⟨case.label, s, m, .refl s, hbody, hleads, rfl⟩
    · exact hspans.imp fun _ _ hspan => hspan.mono hlowered (.refl _)

namespace Stages

variable {label : Option String} {subject : Tree} {arms : List Arm}
  (stages : Stages env recur label subject arms s s')

theorem coded_keyed : coded stages.keyed = stages.cases.map fun case => (case.key, case.body) :=
  (State.bodies_cases stages.keyed stages.ready).symm

/-- The code of the default, from where the cases end to the end of the switch. -/
def defaultBlock : Block := ⟨stages.last.offset, s'.offset⟩

/-- The bodies in the blocks do what `ends` tells. -/
structure Behaves (stages : Stages env recur label subject arms s s')
    (step : Config W → Option (Config W)) (blocks : List Block) (stack : List Int32)
    (ends : Option Int32 → W → BodyEnd W → Prop) : Prop where
  cases : List.Forall₂ (fun arm => Ends step stack stages.last.offset (ends (some arm.1)))
    (coded stages.keyed) blocks
  default : Ends step stack stages.last.offset (ends none) stages.defaultBlock

/-- For every key that is dispatched on, the bodies are executed that some arms
call for. -/
def Performs (step : Config W → Option (Config W)) (blocks : List Block) (stack : List Int32)
    (ends : Option Int32 → W → BodyEnd W → Prop) (called : List (Int32 × Tree)) : Prop :=
  ∀ (key : Int32) (world : W) (bodies : List (Option Int32)) (last : BodyEnd W),
    Course ends (fromKey key called) world bodies last →
    Executes step (blocks ++ [stages.defaultBlock]) ((coded stages.keyed).map Prod.fst)
      ⟨stages.ready.offset, key :: stack, world⟩ bodies
      (last.config stack stages.last.offset s'.offset)

theorem keyed_nodup : (stages.keyed.map Prod.fst).Nodup := by
  rw [List.Nodup, List.pairwise_map]
  apply (List.isChain_iff_pairwise.mp stages.ascending).imp
  intro arm next hlt heq
  rw [heq] at hlt
  exact Int.lt_irrefl _ hlt

theorem Performs.declared {step : Config W → Option (Config W)} {stack : List Int32}
    {ends : Option Int32 → W → BodyEnd W → Prop}
    (h : stages.Performs step blocks stack ends (coded stages.keyed))
    (hfalls : NeverFallsIntoRedirect ends stages.keyed) :
    stages.Performs step blocks stack ends stages.keyed := by
  intro key world bodies last hcourse
  apply h key world bodies last
  exact hcourse.fromKey_coded hfalls stages.keyed_nodup

theorem offset_labelled : stages.labelled.offset = stages.ready.offset :=
  State.offset_armTargets _ _ _

theorem leads_before (hrecur : Derives env recur) : s.Leads stages.first := by
  have hlabelled : s.Leads stages.labelled := (stages.leads_ready hrecur).trans (.armTargets rfl)
  exact hlabelled.trans (stages.leads_dispatch.trans (stages.leads_first hrecur))

theorem default_spans (hrecur : Derives env recur) :
    ∀ body ∈ stages.defaultBody, Spans env recur s s' body stages.defaultBlock := by
  intro body hsome
  have hruns := stages.defaulted
  rw [hsome] at hruns
  obtain ⟨_, m, hbody, hnil⟩ := runs_bind.mp hruns
  obtain ⟨_, rfl⟩ := runs_pure.mp hnil
  refine ⟨s.label 2, stages.last, stages.done, ?_, hbody, stages.leads_left hrecur, ?_⟩
  · exact (stages.leads_before hrecur).trans (stages.leads_last hrecur)
  · rw [defaultBlock, stages.offset_done]

/-- The code of the switch executes the bodies of the arms that have code. -/
theorem performs {image : Image} {effects : Effects W} {stack : List Int32}
    {ends : Option Int32 → W → BodyEnd W → Prop} (hrecur : Derives env recur) (hs : image.Passes s)
    (hs' : image.Passes s')
    (hbehaves : stages.Behaves (image.program.advance? effects) blocks stack ends)
    (hstarts : stages.starts =
      (coded stages.keyed).zipWith (fun arm block => (arm.1, block.start)) blocks)
    (hadjoins : Adjoins stages.first.offset blocks stages.last.offset) :
    stages.Performs (image.program.advance? effects) blocks stack ends (coded stages.keyed) := by
  intro key world bodies last hcourse
  have hown : ∀ arm ∈ coded stages.keyed, arm.2.isPureRedirect = false := by
    intro arm hmem
    simpa using (List.mem_filter.mp hmem).2
  have hplaced := placed_of_adjoins [] [] rfl hown hbehaves.cases hbehaves.default hadjoins
  obtain ⟨entered, later, hentered⟩ := hplaced.exists_fromKey key
  have hexecutes := hentered.executes hcourse
  rw [← hstarts, List.nil_append, List.nil_append] at hexecutes
  obtain ⟨hlabelled, hdispatched⟩ := stages.passes_dispatch hrecur hs hs'
  obtain ⟨op, hinstr⟩ := instruction?_dispatchCall stages.encoding (s.label 2)
    (stages.ready.armTargets (s.label 2) (stages.encoding.arrange stages.keyed)).1
    stages.labelled.assembler.pool
  have hread := hlabelled.read hdispatched stages.proper hinstr
  have hselect := stages.select?_eq hrecur hs hs' stages.encoding key
  rw [← stages.offset_labelled]
  refine hexecutes.instruction (fun block hmem hin => ?_) (hread.advance?_select hselect effects)
  -- the dispatch lies before all bodies
  have hfirst : stages.labelled.offset < stages.first.offset := by
    rw [first, State.offset_emits rfl]
    exact hread.lt
  have hle : stages.first.offset ≤ block.start := by
    rcases List.mem_append.mp hmem with hmem | hmem
    · exact hadjoins.le.2 block hmem
    · obtain rfl := List.mem_singleton.mp hmem
      exact hadjoins.le.1
  exact absurd (hfirst.trans_le (hle.trans hin.1)) (Nat.lt_irrefl _)

end Stages

/-- Wherever a switch over ints stands in a routine, its code executes for every
key the bodies that the arms with code call for: from the arm with the key on, and
from the default if there is none. As long as no body falls into an arm that only
redirects, these are the bodies that all its arms call for. -/
theorem intSwitch_executes {decl : RoutineDecl} {shared : Shared} {depth : Nat}
    {label : Option String} {subject : Tree} {arms : List Arm} {t : State} {output : RoutineOutput}
    (hstart : (State.initial env.nest shared decl.info).Leads s)
    (hswitch : Runs (Lowering.intSwitch (Handlers.standard.run depth) label subject arms) env s ()
      s') (hrest : s'.Leads t) (hfinish : t.finish = .ok output) :
    ∃ (stages : Stages env (Handlers.standard.run depth) label subject arms s s')
      (blocks : List Block),
      List.Forall₂ (fun arm => Spans env (Handlers.standard.run depth) s s' arm.2)
        (coded stages.keyed) blocks ∧
      (∀ body ∈ stages.defaultBody,
        Spans env (Handlers.standard.run depth) s s' body stages.defaultBlock) ∧
      ∀ {W : Type} (effects : Effects W) (stack : List Int32)
        (ends : Option Int32 → W → BodyEnd W → Prop),
        let step := Program.advance? ⟨output.code.chunk, t.assembler.pool⟩ effects
        stages.Behaves step blocks stack ends →
        stages.Performs step blocks stack ends (coded stages.keyed) ∧
        (NeverFallsIntoRedirect ends stages.keyed →
          stages.Performs step blocks stack ends stages.keyed) := by
  have hrecur : Derives env (Handlers.standard.run depth) := Derives.run env depth
  obtain ⟨stages⟩ := nonempty_stages hrecur hswitch
  have hpart : s.Leads s' := (hrecur.intSwitch hswitch).leads rfl
  obtain ⟨hs, hs'⟩ := hpart.passes_part hstart hrest hfinish
  have hfirst := hs.between hs' (stages.leads_before hrecur) (stages.leads_default hrecur)
  have hlast := hfirst.between hs' (stages.leads_last hrecur) (stages.leads_behind hrecur)
  obtain ⟨blocks, hspans, hstarts, hadjoins⟩ := stages.layout.exists_blocks hrecur
    (stages.pending_cases hrecur) (State.labels_cases_nodup _ _) hfirst hlast
  have hcoded : stages.starts =
      (coded stages.keyed).zipWith (fun arm block => (arm.1, block.start)) blocks := by
    rw [hstarts, stages.coded_keyed, List.zipWith_map_left]
    rfl
  refine ⟨stages, blocks, ?_, stages.default_spans hrecur, ?_⟩
  · rw [stages.coded_keyed, List.forall₂_map_left_iff]
    exact hspans.imp fun _ _ hspan =>
      hspan.mono (stages.leads_before hrecur) (stages.leads_behind hrecur)
  · intro W effects stack ends step hbehaves
    have hperforms := stages.performs hrecur hs hs' hbehaves hcoded hadjoins
    exact ⟨hperforms, Stages.Performs.declared stages hperforms⟩

/-- Store an int in a static field. -/
def logInt (value : Int32) : Tree :=
  .writeField (.object "demo.Log") "value" .int none (.int value)

/-- The first body falls into an arm that only redirects. -/
def redirectBetween : List (Int32 × Tree) :=
  [(1, logInt 10), (2, .redirect), (3, .block [logInt 30, .breakTo none])]

def fallingDecl : RoutineDecl where
  owner := .object "demo.Main"
  name := "run"
  params := [⟨"k", .int⟩]
  result := .void
  isStatic := true
  body := .switch none .int (.readLocal "k" .int)
    (redirectBetween.map (fun arm => Arm.new (.int arm.1) arm.2) ++ [⟨none, logInt 90⟩])

/-- Variables hold the key, and what is stored in static fields is logged. -/
def logging (pool : Pool) (key : Int32) : Effects (List Int32) := fun op operand next config =>
  match op, operand, config.stack with
  | .getLocal, _, stack => some ⟨next, key :: stack, config.world⟩
  | .constant, .byte index, stack =>
    match pool.get? index.toNat with
    | some (.int value) => some ⟨next, value :: stack, config.world⟩
    | _ => none
  | .setStatic, _, value :: stack => some ⟨next, stack, config.world ++ [value]⟩
  | _, _, _ => none

/-- What the bodies log. The last one breaks out of the switch, to 47. -/
inductive Logs : Option Int32 → List Int32 → BodyEnd (List Int32) → Prop
  | one {log : List Int32} : Logs (some 1) log (.falls (log ++ [10]))
  | three {log : List Int32} : Logs (some 3) log (.leaves ⟨47, [], log ++ [30]⟩)
  | default {log : List Int32} : Logs none log (.falls (log ++ [90]))

/-- The arms call for the body under 1 and then for the default. The code executes
the body under 3 instead. -/
theorem falls_past_redirect :
    Course Logs (fromKey 1 redirectBetween) [] [some 1, none] (.falls [10, 90]) ∧
    Course Logs (fromKey 1 (coded redirectBetween)) [] [some 1, some 3]
      (.leaves ⟨47, [], [10, 30]⟩) ∧
    ∃ lowered nested shared',
      Lowering.routine Handlers.standard.process fallingDecl ⟨.empty, {}⟩ .empty =
        (.ok (lowered, nested), shared') ∧
      (Program.advances? ⟨lowered.code.chunk, shared'.pool⟩ (logging shared'.pool 1) 7
        ⟨0, [], []⟩).map (fun config => (config.pc, config.world)) = some (47, [10, 30]) := by
  refine ⟨?_, ?_, ?_⟩
  · exact .falls rfl .one (.redirect rfl (.default .default))
  · exact .falls rfl .one (.leaves rfl .three)
  · exact Lowering.exists_lowered (by decide +kernel)

end StackLowering.Switch
