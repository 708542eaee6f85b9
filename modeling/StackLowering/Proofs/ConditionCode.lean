import StackLowering.Proofs.Blocks
/-!
The code of conditions. A condition joins tests by connectives, and the tests may
be any expressions. Short-circuit evaluation tells which tests are evaluated and
what comes out. The code does the same, whether it jumps on the condition or
leaves its value: if the code of every test pushes a boolean, the tests are
evaluated that short-circuit evaluation evaluates, in the same order, each once.
-/

namespace StackLowering

variable {W : Type}

/-- What comes out of a condition, and the numbers of the tests that were evaluated. -/
structure Decision (W : Type) where
  value : Bool
  evaluated : List Nat
  world : W

namespace Tree

/-- The tests of a condition, from left to right. -/
def tests : Tree → List Tree
  | .logical _ left right => left.tests ++ right.tests
  | .not operand => operand.tests
  | .literal (.bool _) => []
  | test => [test]

/-- Short-circuit evaluation, from left to right. Tests are numbered from `first`
on, and `meaning` tells what a test comes to in a world and what it changes there. -/
def shortCircuit (meaning : Nat → W → Bool × W) : Tree → Nat → W → Decision W
  | .logical operator left right, first, world =>
    let decision := left.shortCircuit meaning first world
    -- `true` decides a disjunction, `false` a conjunction
    if decision.value = (operator == .or) then decision
    else
      let rest := right.shortCircuit meaning (first + left.tests.length) decision.world
      ⟨rest.value, decision.evaluated ++ rest.evaluated, rest.world⟩
  | .not operand, first, world =>
    let decision := operand.shortCircuit meaning first world
    ⟨!decision.value, decision.evaluated, decision.world⟩
  | .literal (.bool value), _, world => ⟨value, [], world⟩
  | _, first, world => ⟨(meaning first world).1, [first], (meaning first world).2⟩

variable {tree : Tree}

theorem tests_of_isTested (h : tree.isTested = true) : tree.tests = [tree] := by
  unfold isTested at h
  split at h
  · cases h
  · cases h
  · cases h
  · rw [tests] <;> assumption

theorem shortCircuit_of_isTested {meaning : Nat → W → Bool × W} {first : Nat} {world : W}
    (h : tree.isTested = true) : tree.shortCircuit meaning first world =
      ⟨(meaning first world).1, [first], (meaning first world).2⟩ := by
  unfold isTested at h
  split at h
  · cases h
  · cases h
  · cases h
  · rw [shortCircuit] <;> assumption

section Logical

variable {meaning : Nat → W → Bool × W} {operator : LogicalOp} {left right : Tree} {first : Nat}
  {world : W}

theorem shortCircuit_decided
    (h : (left.shortCircuit meaning first world).value = (operator == .or)) :
    (logical operator left right).shortCircuit meaning first world =
      left.shortCircuit meaning first world := by
  rw [shortCircuit, if_pos h]

theorem shortCircuit_undecided
    (h : (left.shortCircuit meaning first world).value = !(operator == .or)) :
    (logical operator left right).shortCircuit meaning first world =
      ⟨(right.shortCircuit meaning (first + left.tests.length)
          (left.shortCircuit meaning first world).world).value,
        (left.shortCircuit meaning first world).evaluated ++
          (right.shortCircuit meaning (first + left.tests.length)
            (left.shortCircuit meaning first world).world).evaluated,
        (right.shortCircuit meaning (first + left.tests.length)
          (left.shortCircuit meaning first world).world).world⟩ := by
  rw [shortCircuit, if_neg]
  rw [h]
  exact Bool.not_ne_self _

end Logical

end Tree

/-- The code in the block pushes a boolean and falls through. -/
def Block.Pushes (step : Config W → Option (Config W)) (block : Block) (meaning : W → Bool × W) :
    Prop :=
  ∀ stack world, Pass step block ⟨block.start, stack, world⟩
    ⟨block.stop, boolCell (meaning world).1 :: stack, (meaning world).2⟩

def Block.Within (block : Block) (start stop : Nat) : Prop :=
  start ≤ block.start ∧ block.stop ≤ stop

/-- A machine that runs a program in which some blocks push booleans. -/
structure Tester (program : Program) (W : Type) where
  effects : Effects W
  blocks : List Block
  meaning : Nat → W → Bool × W
  pushes : ∀ (index : Nat) (block : Block), blocks[index]? = some block →
    block.Pushes (program.advance? effects) (meaning index)

namespace Tester

variable {program : Program}

def step (tester : Tester program W) : Config W → Option (Config W) :=
  program.advance? tester.effects

/-- Of the code from `start` to `stop`, exactly these blocks push booleans. They
are numbered from `first` on. -/
structure Owns (tester : Tester program W) (first : Nat) (blocks : List Block)
    (start stop : Nat) : Prop where
  numbered : ∀ (index : Nat) (block : Block), blocks[index]? = some block →
    tester.blocks[first + index]? = some block
  only : ∀ block ∈ tester.blocks, ∀ pc, start ≤ pc → pc < stop → block.Contains pc →
    block ∈ blocks

namespace Owns

variable {tester : Tester program W} {first start middle stop : Nat}
  {blocks before behind : List Block}

theorem outside {pc : Nat} (h : tester.Owns first blocks start stop)
    (hstart : start ≤ pc) (hstop : pc < stop) (hout : ∀ block ∈ blocks, ¬ block.Contains pc) :
    ∀ block ∈ tester.blocks, ¬ block.Contains pc := by
  intro block hmem hin
  exact hout block (h.only block hmem pc hstart hstop hin) hin

theorem shorter (h : tester.Owns first blocks start stop) (hmiddle : middle ≤ stop) :
    tester.Owns first blocks start middle where
  numbered := h.numbered
  only block hmem pc hpc hpc' := h.only block hmem pc hpc (hpc'.trans_le hmiddle)

theorem left (h : tester.Owns first (before ++ behind) start stop) (hmiddle : middle ≤ stop)
    (hbehind : ∀ block ∈ behind, middle ≤ block.start) :
    tester.Owns first before start middle where
  numbered index block hindex := h.numbered index block (by
    rw [List.getElem?_append_left (List.getElem?_eq_some_iff.mp hindex).1]
    exact hindex)
  only block hmem pc hpc hpc' hin := by
    rcases List.mem_append.mp ((h.shorter hmiddle).only block hmem pc hpc hpc' hin) with hmem | hmem
    · exact hmem
    · exact absurd hpc' (Nat.not_lt.mpr ((hbehind block hmem).trans hin.1))

theorem right (h : tester.Owns first (before ++ behind) start stop) (hmiddle : start ≤ middle)
    (hbefore : ∀ block ∈ before, block.stop ≤ middle) :
    tester.Owns (first + before.length) behind middle stop where
  numbered index block hindex := by
    rw [Nat.add_assoc]
    apply h.numbered
    rw [List.getElem?_append_right (Nat.le_add_right _ _), Nat.add_sub_cancel_left]
    exact hindex
  only block hmem pc hpc hpc' hin := by
    rcases List.mem_append.mp (h.only block hmem pc (hmiddle.trans hpc) hpc' hin) with hmem | hmem
    · exact absurd (hin.2.trans_le (hbefore block hmem)) (Nat.not_lt.mpr hpc)
    · exact hmem

end Owns

end Tester

/-- Where code goes when a condition has a value, and what it leaves on the stack. -/
abbrev Ending := Bool → List Int32 → Nat × List Int32

namespace Ending

/-- Jump if the condition is `sense`, else go on behind the code. -/
def jumps (sense : Bool) (target stop : Nat) : Ending :=
  fun value stack => (if value = sense then target else stop, stack)

/-- Push the value and go on behind the code. -/
def pushes (stop : Nat) : Ending := fun value stack => (stop, boolCell value :: stack)

theorem jumps_self (sense : Bool) (target stop : Nat) (stack : List Int32) :
    jumps sense target stop sense stack = (target, stack) := by
  rw [jumps, if_pos rfl]

theorem jumps_not (sense : Bool) (target stop : Nat) (stack : List Int32) :
    jumps sense target stop (!sense) stack = (stop, stack) := by
  rw [jumps, if_neg (Bool.not_ne_self sense)]

end Ending

variable {sense : Bool}

namespace Program

variable {program : Program} {tree : Tree} {blocks : List Block} {start middle stop : Nat}
  {ending : Ending}

/-- The code from `start` to `stop` evaluates a condition as short-circuit
evaluation does. The code of its tests is in the blocks. -/
structure Codes (program : Program) (tree : Tree) (blocks : List Block) (start stop : Nat)
    (ending : Ending) : Prop where
  forward : start ≤ stop
  within : ∀ block ∈ blocks, block.Within start stop
  ordered : blocks.Pairwise fun before behind => before.stop ≤ behind.start
  count : blocks.length = tree.tests.length
  walks : ∀ {W : Type} (tester : Tester program W) (first : Nat) (stack : List Int32) (world : W),
    tester.Owns first blocks start stop →
    Walk tester.step tester.blocks ⟨start, stack, world⟩
      (tree.shortCircuit tester.meaning first world).evaluated
      ⟨(ending (tree.shortCircuit tester.meaning first world).value stack).1,
        (ending (tree.shortCircuit tester.meaning first world).value stack).2,
        (tree.shortCircuit tester.meaning first world).world⟩

namespace Codes

theorem outside {tester : Tester program W} {first pc : Nat}
    (h : program.Codes tree blocks start middle ending)
    (howns : tester.Owns first blocks start stop) (hpc : middle ≤ pc) (hpc' : pc < stop) :
    ∀ block ∈ tester.blocks, ¬ block.Contains pc := by
  refine howns.outside (h.forward.trans hpc) hpc' fun block hmem hin => ?_
  exact absurd (hin.2.trans_le (h.within block hmem).2) (Nat.not_lt.mpr hpc)

theorem test (htested : tree.isTested = true) (hforward : start ≤ stop) :
    program.Codes tree [⟨start, stop⟩] start stop (.pushes stop) where
  forward := hforward
  within := List.forall_mem_singleton.mpr ⟨le_rfl, le_rfl⟩
  ordered := List.pairwise_singleton _ _
  count := by rw [Tree.tests_of_isTested htested]; rfl
  walks tester first stack world howns := by
    rw [Tree.shortCircuit_of_isTested htested]
    have hblock := howns.numbered 0 _ rfl
    exact .block hblock rfl (tester.pushes _ _ hblock stack world) .done

/-- An instruction behind code that has left the value of a condition. -/
theorem andStep (h : program.Codes tree blocks start middle (.pushes middle))
    (hstop : middle < stop)
    (hstep : ∀ {W : Type} (effects : Effects W) (value : Bool) (stack : List Int32) (world : W),
      program.advance? effects ⟨middle, boolCell value :: stack, world⟩ =
        some ⟨(ending value stack).1, (ending value stack).2, world⟩) :
    program.Codes tree blocks start stop ending where
  forward := h.forward.trans hstop.le
  within block hmem := ⟨(h.within block hmem).1, (h.within block hmem).2.trans hstop.le⟩
  ordered := h.ordered
  count := h.count
  walks tester first stack world howns := by
    have hwalk := h.walks tester first stack world (howns.shorter hstop.le)
    exact hwalk.andStep (h.outside howns le_rfl hstop) (hstep tester.effects _ _ _)

theorem literal_jumps {target : Nat} (h : program.At start .jump (.jump target) stop) :
    program.Codes (.literal (.bool sense)) [] start stop (.jumps sense target stop) where
  forward := h.lt.le
  within := List.forall_mem_nil _
  ordered := .nil
  count := rfl
  walks tester first stack world howns := by
    refine .instruction (howns.outside le_rfl h.lt (List.forall_mem_nil _))
      (h.advance?_jump tester.effects) ?_
    rw [Tree.shortCircuit, Ending.jumps_self]
    exact .done

theorem literal_skips {target : Nat} :
    program.Codes (.literal (.bool !sense)) [] start start (.jumps sense target start) where
  forward := le_rfl
  within := List.forall_mem_nil _
  ordered := .nil
  count := rfl
  walks tester first stack world howns := by
    rw [Tree.shortCircuit, Ending.jumps_not]
    exact .done

theorem literal {value : Bool}
    (h : program.At start (if value then .pushTrue else .pushFalse) .none stop) :
    program.Codes (.literal (.bool value)) [] start stop (.pushes stop) where
  forward := h.lt.le
  within := List.forall_mem_nil _
  ordered := .nil
  count := rfl
  walks tester _ _ _ howns :=
    .instruction (howns.outside le_rfl h.lt (List.forall_mem_nil _))
      (h.advance?_bool value tester.effects) .done

theorem not (h : program.Codes tree blocks start stop ending) :
    program.Codes (.not tree) blocks start stop fun value => ending (!value) where
  forward := h.forward
  within := h.within
  ordered := h.ordered
  count := h.count
  walks tester first stack world howns := by
    have hwalk := h.walks tester first stack world howns
    simp only [Tree.shortCircuit, Bool.not_not]
    exact hwalk

/-- Both sides, one after the other. If the left side decides, its code ends where
all the code ends. Else it goes on to the right side. -/
theorem logical {operator : LogicalOp} {left right : Tree} {before behind : List Block}
    {first : Ending} (hleft : program.Codes left before start middle first)
    (hright : program.Codes right behind middle stop ending)
    (hdecided : first (operator == .or) = ending (operator == .or))
    (hopen : ∀ stack, first (!(operator == .or)) stack = (middle, stack)) :
    program.Codes (.logical operator left right) (before ++ behind) start stop ending where
  forward := hleft.forward.trans hright.forward
  within block hmem := by
    rcases List.mem_append.mp hmem with hmem | hmem
    · exact ⟨(hleft.within block hmem).1, (hleft.within block hmem).2.trans hright.forward⟩
    · exact ⟨hleft.forward.trans (hright.within block hmem).1, (hright.within block hmem).2⟩
  ordered := List.pairwise_append.mpr ⟨hleft.ordered, hright.ordered, fun block hmem other hmem' =>
    (hleft.within block hmem).2.trans (hright.within other hmem').1⟩
  count := by rw [Tree.tests, List.length_append, List.length_append, hleft.count, hright.count]
  walks tester number stack world howns := by
    have hfirst := hleft.walks tester number stack world
      (howns.left hright.forward fun block hmem => (hright.within block hmem).1)
    by_cases hvalue : (left.shortCircuit tester.meaning number world).value = (operator == .or)
    · rw [hvalue, hdecided] at hfirst
      rwa [Tree.shortCircuit_decided hvalue, hvalue]
    · have hvalue := Bool.eq_not.mpr hvalue
      rw [hvalue, hopen] at hfirst
      rw [Tree.shortCircuit_undecided hvalue, ← hleft.count]
      exact hfirst.trans (hright.walks tester _ stack _
        (howns.right hleft.forward fun block hmem => (hleft.within block hmem).2))

/-- Code that jumps if the condition is false is turned into code that pushes it. -/
theorem pushes {onTrue onFalse : Nat}
    (h : program.Codes tree blocks start middle (.jumps false onFalse middle))
    (htrue : program.At middle .pushTrue .none onTrue)
    (hjump : program.At onTrue .jump (.jump stop) onFalse)
    (hfalse : program.At onFalse .pushFalse .none stop) :
    program.Codes tree blocks start stop (.pushes stop) := by
  have horder : middle < onTrue ∧ onTrue < onFalse ∧ onFalse < stop :=
    ⟨htrue.lt, hjump.lt, hfalse.lt⟩
  have hstop : middle ≤ stop := by omega
  refine ⟨h.forward.trans hstop, fun block hmem => ?_, h.ordered, h.count, ?_⟩
  · exact ⟨(h.within block hmem).1, (h.within block hmem).2.trans hstop⟩
  · intro W tester first stack world howns
    have hout (pc : Nat) (hpc : middle ≤ pc) (hpc' : pc < stop) := h.outside howns hpc hpc'
    have hwalk := h.walks tester first stack world (howns.shorter hstop)
    cases hvalue : (tree.shortCircuit tester.meaning first world).value with
    | true =>
      rw [hvalue] at hwalk
      have hpushed := hwalk.andStep (hout middle le_rfl (by omega))
        (htrue.advance?_bool true tester.effects)
      exact hpushed.andStep (hout onTrue horder.1.le (by omega))
        (hjump.advance?_jump tester.effects)
    | false =>
      rw [hvalue] at hwalk
      exact hwalk.andStep (hout onFalse (by omega) horder.2.2)
        (hfalse.advance?_bool false tester.effects)

end Codes

/-- Run from `start`, the program evaluates a condition as short-circuit evaluation
does, if the code in the blocks pushes what the tests come to. -/
def Evaluates (program : Program) (tree : Tree) (blocks : List Block) (start : Nat)
    (ending : Ending) : Prop :=
  ∀ {W : Type} (effects : Effects W) (meaning : Nat → W → Bool × W),
    (∀ (index : Nat) (block : Block), blocks[index]? = some block →
      block.Pushes (program.advance? effects) (meaning index)) →
    ∀ (stack : List Int32) (world : W),
      let decision := tree.shortCircuit meaning 0 world
      Walk (program.advance? effects) blocks ⟨start, stack, world⟩ decision.evaluated
        ⟨(ending decision.value stack).1, (ending decision.value stack).2, decision.world⟩

theorem Codes.evaluates (h : program.Codes tree blocks start stop ending) :
    program.Evaluates tree blocks start ending := by
  intro W effects meaning hpushes stack world
  have howns : Tester.Owns ⟨effects, blocks, meaning, hpushes⟩ 0 blocks start stop := by
    refine ⟨fun index block hindex => ?_, fun block hmem _ _ _ _ => hmem⟩
    rw [Nat.zero_add]
    exact hindex
  exact h.walks ⟨effects, blocks, meaning, hpushes⟩ 0 stack world howns

end Program

/-- The block holds the code of a test whose value is lowered on the way from `s`
to `s'`. -/
def TestCode (env : Env) (s s' : State) (test : Tree) (block : Block) : Prop :=
  ∃ depth m m', s.Leads m ∧ Lower.Runs ((Handlers.standard.run depth).value test) env m () m' ∧
    m'.Leads s' ∧ block = ⟨m.offset, m'.offset⟩

/-- The code from one state to another evaluates a condition as short-circuit
evaluation does, with the code of its tests in blocks. -/
def Image.Coded (image : Image) (env : Env) (tree : Tree) (s s' : State) (ending : Ending) : Prop :=
  ∃ blocks, List.Forall₂ (TestCode env s s') tree.tests blocks ∧
    image.program.Codes tree blocks s.offset s'.offset ending

theorem Ending.jumps_comp_not (sense : Bool) (target stop : Nat) :
    (fun value => jumps (!sense) target stop (!value)) = jumps sense target stop := by
  funext value stack
  cases sense <;> cases value <;> rfl

theorem TestCode.mono {env : Env} {s m m' s' : State} {test : Tree} {block : Block}
    (h : TestCode env m m' test block) (hbefore : s.Leads m) (hafter : m'.Leads s') :
    TestCode env s s' test block := by
  obtain ⟨depth, k, k', hfirst, hruns, hlast, rfl⟩ := h
  exact ⟨depth, k, k', hbefore.trans hfirst, hruns, hlast.trans hafter, rfl⟩

namespace Lowering

open Lower

/-- What a value is lowered by. The value is used, so it is not discarded. -/
theorem runs_value {env : Env} {depth : Nat} {tree : Tree} {s s' : State}
    (h : Runs ((Handlers.standard.run depth).value tree) env s () s') :
    ∃ inner m, Runs (Lowering.tree (Handlers.standard.run inner) tree) env s.enterExpression () m ∧
      m.expressionDepth ≠ 0 ∧ s' = m.exitExpression := by
  have hrecur : Derives env (Handlers.standard.run depth) := Derives.run env depth
  obtain ⟨m, htree, rfl⟩ := runs_inExpression.mp h
  have hdepth : m.expressionDepth = s.expressionDepth + 1 := (hrecur htree).keeps.depth
  cases depth with
  | zero => exact absurd htree runs_throw
  | succ depth =>
    rw [Handlers.run_succ] at htree
    exact ⟨depth, m, htree, by omega, rfl⟩

end Lowering

namespace Image

open Lower

variable {image : Image} {env : Env} {depth : Nat} {tree : Tree} {s m m' s' : State}
  {ending : Ending}

namespace Coded

theorem mono (h : image.Coded env tree m m' ending) (hbefore : s.Leads m) (hafter : m'.Leads s')
    (hstart : m.offset = s.offset) (hstop : s'.offset = m'.offset) :
    image.Coded env tree s s' ending := by
  obtain ⟨blocks, htests, hcodes⟩ := h
  refine ⟨blocks, htests.imp fun _ _ htest => htest.mono hbefore hafter, ?_⟩
  rwa [← hstart, hstop]

theorem test (htested : tree.isTested = true) (hs : image.Passes s) (hs' : image.Passes s')
    (hruns : Runs ((Handlers.standard.run depth).value tree) env s () s') :
    image.Coded env tree s s' (.pushes s'.offset) := by
  have hrecur : Derives env (Handlers.standard.run depth) := Derives.run env depth
  have hleads := (hrecur.value hruns).leads rfl
  refine ⟨[⟨s.offset, s'.offset⟩], ?_, .test htested (hs.offset_le hs' hleads)⟩
  rw [Tree.tests_of_isTested htested]
  exact .cons ⟨depth, s, s', .refl s, hruns, .refl s', rfl⟩ .nil

theorem logical {operator : LogicalOp} {left right : Tree} {first : Ending}
    (hleft : image.Coded env left s m first) (hright : image.Coded env right m s' ending)
    (hbefore : s.Leads m) (hafter : m.Leads s')
    (hdecided : first (operator == .or) = ending (operator == .or))
    (hopen : ∀ stack, first (!(operator == .or)) stack = (m.offset, stack)) :
    image.Coded env (.logical operator left right) s s' ending := by
  obtain ⟨before, htests, hcodes⟩ := hleft
  obtain ⟨behind, htests', hcodes'⟩ := hright
  refine ⟨before ++ behind, ?_, hcodes.logical hcodes' hdecided hopen⟩
  exact List.rel_append (htests.imp fun _ _ htest => htest.mono (.refl s) hafter)
    (htests'.imp fun _ _ htest => htest.mono hbefore (.refl s'))

end Coded

/-- The code of a jump on a condition. -/
theorem coded_jumpIf {target : Label}
    (h : Runs (Lowering.jumpIf (Handlers.standard.run depth) tree sense target) env s () s')
    (hs : image.Passes s) (hs' : image.Passes s') :
    image.Coded env tree s s' (.jumps sense (image.position target) s'.offset) := by
  have hrecur : Derives env (Handlers.standard.run depth) := Derives.run env depth
  fun_induction Lowering.jumpIf (Handlers.standard.run depth) tree sense target
      generalizing s s' with
  | case1 operator left right target ihleft ihright =>
    obtain ⟨_, m, hleft, hright⟩ := runs_bind.mp h
    have hbefore := (hrecur.jumpIf hleft).leads rfl
    have hafter := (hrecur.jumpIf hright).leads rfl
    have hm := hs.between hs' hbefore hafter
    refine (ihleft hleft hs hm).logical (ihright hright hm hs') hbefore hafter ?_ fun stack => ?_
    · funext stack
      rw [Ending.jumps_self, Ending.jumps_self]
    · rw [Ending.jumps_not]
  | case2 operator left right sense target hsense ihleft ihright =>
    simp only [runs_bind, runs_newLabel, runs_mark] at h
    obtain ⟨skip, _, ⟨rfl, rfl⟩, _, m, hleft, _, m', hright, rfl⟩ := h
    have hfirst := hrecur.jumpIf hleft
    have hsecond := hrecur.jumpIf hright
    have hpending : m'.Pending (s.label 0) :=
      hsecond.pending rfl (hfirst.pending rfl (s.pending_newLabels Nat.one_pos))
    have hnew : s.Leads (s.emits .newLabel) := .newLabels 1 s
    have hbind := State.Leads.bind hpending
    have hafter := (hsecond.leads rfl).trans hbind
    have hstart := hs.between hs' hnew ((hfirst.leads rfl).trans hafter)
    have hm := hstart.between hs' (hfirst.leads rfl) hafter
    have hm' := hm.between hs' (hsecond.leads rfl) hbind
    have hstop : (m'.emits (.bind (s.label 0))).offset = m'.offset := State.offset_emits rfl
    have hleft := (ihleft _ hleft hstart hm).mono hnew (.refl m) (State.offset_emits rfl) rfl
    have hright := (ihright hright hm hm').mono (.refl m) hbind rfl hstop
    rw [hs'.position_bind hpending.known] at hleft
    -- the left side decides where it jumps over the right side
    have hsense : (operator == .or) = !sense := Bool.eq_not.mpr hsense
    rw [hstop]
    refine hleft.logical hright (hnew.trans (hfirst.leads rfl)) hafter ?_ fun stack => ?_
    · funext stack
      rw [hsense, Ending.jumps_self, Ending.jumps_not]
    · rw [hsense, Ending.jumps_not]
  | case3 operand sense target ih =>
    obtain ⟨blocks, htests, hcodes⟩ := ih h hs hs'
    refine ⟨blocks, htests, ?_⟩
    rw [← Ending.jumps_comp_not]
    exact hcodes.not
  | case4 sense target =>
    obtain rfl := runs_jump.mp h
    exact ⟨[], .nil, .literal_jumps (hs.read hs' rfl rfl)⟩
  | case5 value sense target hsense =>
    obtain ⟨_, rfl⟩ := runs_pure.mp h
    obtain rfl := Bool.eq_not.mpr hsense
    exact ⟨[], .nil, .literal_skips⟩
  | case6 condition sense target hlogical hnot hliteral =>
    simp only [runs_bind, runs_emit] at h
    obtain ⟨_, m, hvalue, rfl⟩ := h
    change image.Passes (m.emits (.jump (if sense then .jumpIfTrue else .jumpIfFalse) target))
      at hs'
    have hplain := Call.plain_jumpIf sense target
    have hjump : m.Leads (m.emits (.jump (if sense then .jumpIfTrue else .jumpIfFalse) target)) :=
      .emits hplain rfl
    have hm := hs.between hs' ((hrecur.value hvalue).leads rfl) hjump
    have htested := Tree.isTested_of_forall_ne hlogical hnot hliteral
    have hread := hm.read hs' (hplain s.slots).proper rfl
    obtain ⟨blocks, htests, hcodes⟩ := Coded.test htested hs hm hvalue
    refine ⟨blocks, htests.imp fun _ _ htest => htest.mono (.refl s) hjump, ?_⟩
    exact hcodes.andStep hread.lt fun effects value stack world =>
      hread.advance?_jumpIf effects value

theorem coded_literal {value : Bool} (h : Runs (Lowering.literal (.bool value)) env s () s')
    (hused : s'.expressionDepth ≠ 0) (hs : image.Passes s) (hs' : image.Passes s') :
    image.Coded env (.literal (.bool value)) s s' (.pushes s'.offset) := by
  simp only [Lowering.literal, Lowering.pushLiteral, runs_bind, runs_emit, runs_discard] at h
  obtain ⟨_, _, rfl, rfl⟩ := h
  rw [State.discard_of_used hused] at hs' ⊢
  have hafter : image.Passes (s.emits (.bool value)) := hs'
  exact ⟨[], .nil, .literal (hs.read hafter trivial rfl)⟩

theorem coded_not {operand : Tree}
    (h : Runs (Lowering.not (Handlers.standard.run depth) operand) env s () s')
    (hoperand : ∀ {m}, Runs ((Handlers.standard.run depth).value operand) env s () m →
      image.Passes m → image.Coded env operand s m (.pushes m.offset))
    (hused : s'.expressionDepth ≠ 0) (hs : image.Passes s) (hs' : image.Passes s') :
    image.Coded env (.not operand) s s' (.pushes s'.offset) := by
  have hrecur : Derives env (Handlers.standard.run depth) := Derives.run env depth
  simp only [Lowering.not, runs_bind, runs_op, runs_discard] at h
  obtain ⟨_, m, hvalue, _, _, rfl, rfl⟩ := h
  rw [State.discard_of_used hused] at hs' ⊢
  have hplain : (Call.op .not).Plain := fun _ => ⟨rfl, rfl⟩
  have hnot : m.Leads (m.emits (.op .not)) := .emits hplain rfl
  have hm := hs.between hs' ((hrecur.value hvalue).leads rfl) hnot
  have hread := hm.read hs' (hplain m.slots).proper rfl
  obtain ⟨blocks, htests, hcodes⟩ := hoperand hvalue hm
  refine ⟨blocks, htests.imp fun _ _ htest => htest.mono (.refl s) hnot, ?_⟩
  have hflipped : image.program.Codes operand blocks s.offset (m.emits (.op .not)).offset
      fun value => Ending.pushes (m.emits (.op .not)).offset (!value) :=
    hcodes.andStep hread.lt fun effects value stack world => hread.advance?_not effects value
  have hnegated := hflipped.not
  simp only [Bool.not_not] at hnegated
  exact hnegated

theorem coded_logical {operator : LogicalOp} {left right : Tree}
    (h : Runs (Lowering.logical (Handlers.standard.run depth) operator left right) env s () s')
    (hused : s'.expressionDepth ≠ 0) (hs : image.Passes s) (hs' : image.Passes s') :
    image.Coded env (.logical operator left right) s s' (.pushes s'.offset) := by
  have hrecur : Derives env (Handlers.standard.run depth) := Derives.run env depth
  simp only [Lowering.logical, runs_bind, runs_newLabel, runs_emit, runs_jump, runs_mark,
    runs_discard] at h
  obtain ⟨_, _, ⟨rfl, rfl⟩, _, _, ⟨rfl, rfl⟩, _, m, hjumps, _, _, rfl, _, _, rfl, _, _, rfl,
    _, _, rfl, _, _, rfl, rfl⟩ := h
  rw [State.label_emits_newLabel] at hs' hused ⊢
  rw [State.discard_of_used hused] at hs' ⊢
  have hafter : image.Passes (m.emitsAll [.bool true, .jump .jump (s.label 1), .bind (s.label 0),
    .bool false, .bind (s.label 1)]) := hs'
  have hnew := State.Leads.newLabels 2 s
  have hbefore := hnew.trans ((hrecur.jumpIf hjumps).leads rfl)
  have hpending {index : Nat} (hindex : index < 2) : m.Pending (s.label index) :=
    (hrecur.jumpIf hjumps).pending rfl (s.pending_newLabels hindex)
  have hne : s.label 0 ≠ s.label 1 := by simp [State.label]
  obtain ⟨hleads₁, hleads₂, hleads₃, hleads₄, hleads₅⟩ :=
    leads_flags rfl rfl rfl rfl rfl (hpending Nat.two_pos) (hpending Nat.one_lt_two) hne
  have hflags := hleads₁.trans (hleads₂.trans (hleads₃.trans (hleads₄.trans hleads₅)))
  have hm := hs.between hafter hbefore hflags
  have hstart := hs.between hm hnew ((hrecur.jumpIf hjumps).leads rfl)
  obtain ⟨htrue, hjump, hfalse, hposition⟩ := reads_flags rfl rfl rfl rfl rfl
    (hpending Nat.two_pos) (hpending Nat.one_lt_two) hne hm hafter
  have hcoded := coded_jumpIf hjumps hstart hm
  rw [hposition] at hcoded
  obtain ⟨blocks, htests, hcodes⟩ := hcoded.mono hnew (.refl m) (s.offset_newLabels 2) rfl
  refine ⟨blocks, htests.imp fun _ _ htest => htest.mono (.refl s) hflags, ?_⟩
  exact hcodes.pushes htrue hjump hfalse

/-- The code of a condition whose value is used. -/
theorem coded_value (h : Runs ((Handlers.standard.run depth).value tree) env s () s')
    (hs : image.Passes s) (hs' : image.Passes s') :
    image.Coded env tree s s' (.pushes s'.offset) := by
  induction tree using Tree.tests.induct generalizing depth s s' with
  | case1 operator left right _ _ =>
    obtain ⟨inner, m, htree, hused, rfl⟩ := Lowering.runs_value h
    have hcoded := coded_logical htree hused (hs.congr rfl rfl) (hs'.congr rfl rfl)
    exact hcoded.mono (.context rfl) (.context rfl) rfl rfl
  | case2 operand ih =>
    obtain ⟨inner, m, htree, hused, rfl⟩ := Lowering.runs_value h
    have hcoded := coded_not htree (fun hvalue hm => ih hvalue (hs.congr rfl rfl) hm) hused
      (hs.congr rfl rfl) (hs'.congr rfl rfl)
    exact hcoded.mono (.context rfl) (.context rfl) rfl rfl
  | case3 value =>
    obtain ⟨inner, m, htree, hused, rfl⟩ := Lowering.runs_value h
    have hcoded := coded_literal htree hused (hs.congr rfl rfl) (hs'.congr rfl rfl)
    exact hcoded.mono (.context rfl) (.context rfl) rfl rfl
  | case4 tree hlogical hnot hliteral =>
    exact .test (Tree.isTested_of_forall_ne hlogical hnot hliteral) hs hs' h

end Image

namespace Lowering

open Lower

/-- Jumps on a condition and values of a condition agree with short-circuit
evaluation, if the code of each test pushes its boolean. The tests have their code
one behind the other. The jump is taken exactly if the condition is `sense`, and
leaves the stack as it was. The value is pushed. -/
theorem condition_short_circuits {decl : RoutineDecl} {env : Env} {shared : Shared} {depth : Nat}
    {tree : Tree} {s s' t : State} {output : RoutineOutput}
    (hstart : (State.initial env.nest shared decl.info).Leads s) (hrest : s'.Leads t)
    (hfinish : t.finish = .ok output) :
    (∀ (sense : Bool) (target : Label),
      Runs (jumpIf (Handlers.standard.run depth) tree sense target) env s () s' →
      ∃ blocks, List.Forall₂ (TestCode env s s') tree.tests blocks ∧
        (blocks.Pairwise fun before behind => before.stop ≤ behind.start) ∧
        Program.Evaluates ⟨output.code.chunk, t.assembler.pool⟩ tree blocks s.offset
          (.jumps sense (t.assembler.positionOf target) s'.offset)) ∧
    (Runs ((Handlers.standard.run depth).value tree) env s () s' →
      ∃ blocks, List.Forall₂ (TestCode env s s') tree.tests blocks ∧
        (blocks.Pairwise fun before behind => before.stop ≤ behind.start) ∧
        Program.Evaluates ⟨output.code.chunk, t.assembler.pool⟩ tree blocks s.offset
          (.pushes s'.offset)) := by
  have hrecur : Derives env (Handlers.standard.run depth) := Derives.run env depth
  constructor
  · intro sense target hjumps
    obtain ⟨hs, hs'⟩ := ((hrecur.jumpIf hjumps).leads rfl).passes_part hstart hrest hfinish
    obtain ⟨blocks, htests, hcodes⟩ := Image.coded_jumpIf hjumps hs hs'
    exact ⟨blocks, htests, hcodes.ordered, hcodes.evaluates⟩
  · intro hvalue
    obtain ⟨hs, hs'⟩ := ((hrecur.value hvalue).leads rfl).passes_part hstart hrest hfinish
    obtain ⟨blocks, htests, hcodes⟩ := Image.coded_value hvalue hs hs'
    exact ⟨blocks, htests, hcodes.ordered, hcodes.evaluates⟩

/-- Other instructions push the next answer of a tape. -/
def tape : Effects (List Bool) := fun _ _ next config =>
  some ⟨next, boolCell (config.world.headD false) :: config.stack, config.world.tail⟩

/-- The code of a test that reads a variable pushes an answer. -/
theorem pushes_tape {decl : RoutineDecl} {env : Env} {shared : Shared} {s s' : State}
    {output : RoutineOutput} {name : String} {block : Block}
    (hstart : (State.initial env.nest shared decl.info).Leads s)
    (hfinish : s'.finish = .ok output) (htest : TestCode env s s' (.readLocal name Ty.bool) block) :
    block.Pushes (Program.advance? ⟨output.code.chunk, s'.assembler.pool⟩ tape)
      fun answers => (answers.headD false, answers.tail) := by
  obtain ⟨depth, m, m', hbefore, hruns, hafter, rfl⟩ := htest
  have hrecur : Derives env (Handlers.standard.run depth) := Derives.run env depth
  have hvalue := (hrecur.value hruns).leads rfl
  obtain ⟨hm, hm'⟩ := hvalue.passes_part (hstart.trans hbefore) hafter hfinish
  obtain ⟨k, htree, rfl⟩ := runs_inExpression.mp hruns
  have hdepth : k.expressionDepth = m.expressionDepth + 1 := (hrecur htree).keeps.depth
  obtain ⟨ty, slot, _, _, rfl⟩ := (hrecur htree).readLocal_inv
  have hused : (m.enterExpression.emits (.getLocal slot)).discard ty =
      m.enterExpression.emits (.getLocal slot) := by
    apply State.discard_of_used
    omega
  rw [hused] at hm' ⊢
  have hcode : (s'.image decl env output).Passes (m.emits (.getLocal slot)) := hm'.congr rfl rfl
  cases haccess : accessLocal .getLocal .getLocalWide slot with
  | mk op operand =>
    have hread := hm.read hcode trivial (congrArg some haccess)
    intro stack answers
    refine .inside ⟨le_rfl, hread.lt⟩ ((hread.advance? tape).trans ?_)
      (.outside fun hin => Nat.lt_irrefl _ hin.2)
    unfold accessLocal at haccess
    split_ifs at haccess <;> cases haccess <;> rfl

/-- A condition in which a test occurs twice. -/
def probe : Tree :=
  .logical .or (.logical .and (.readLocal "ready" Ty.bool) (.readLocal "open" Ty.bool))
    (.not (.readLocal "ready" Ty.bool))

def probeDecl : RoutineDecl where
  owner := .object "demo.Main"
  name := "probe"
  params := []
  result := .void
  isStatic := true
  body := .nothing

/-- Two variables, and a label at the start of the code. -/
def probeStart : State :=
  let s := State.initial .empty .empty probeDecl.info
  let ready := s.withSlots (s.slots.declare "ready" Ty.bool).2
  let both := ready.withSlots (ready.slots.declare "open" Ty.bool).2
  (both.emits .newLabel).emits (.bind (both.label 0))

theorem leads_probeStart : (State.initial .empty .empty probeDecl.info).Leads probeStart := by
  unfold probeStart
  extract_lets s ready both
  have hready : s.slots.declare "ready" Ty.bool =
    (.ok 0, (s.slots.declare "ready" Ty.bool).2) := rfl
  have hopen : ready.slots.declare "open" Ty.bool =
    (.ok 1, (ready.slots.declare "open" Ty.bool).2) := rfl
  have hboth : s.Leads both := (State.Leads.declare hready).trans (.declare hopen)
  have hnew : both.Leads (both.emits .newLabel) := .newLabels 1 both
  exact hboth.trans (hnew.trans (.bind (both.pending_newLabels Nat.one_pos)))

/-- While the tests say so, control goes back to the start. Each time only some of
them are evaluated. -/
theorem condition_short_circuits_probe :
    ∃ s' output blocks, Runs (jumpIf (Handlers.standard.run 1) probe true ⟨0⟩) ⟨.empty, {}⟩
        probeStart () s' ∧ s'.finish = .ok output ∧
      (blocks.Pairwise fun before behind => before.stop ≤ behind.start) ∧
      Walk (Program.advance? ⟨output.code.chunk, s'.assembler.pool⟩ tape) blocks
        ⟨0, [], [true, true]⟩ [0, 1] ⟨s'.assembler.positionOf ⟨0⟩, [], []⟩ ∧
      Walk (Program.advance? ⟨output.code.chunk, s'.assembler.pool⟩ tape) blocks
        ⟨0, [], [false, true]⟩ [0, 2] ⟨s'.offset, [], []⟩ := by
  have hstart := leads_probeStart
  generalize hresult : jumpIf (Handlers.standard.run 1) probe true ⟨0⟩ ⟨.empty, {}⟩ probeStart =
    result
  obtain ⟨outcome, s'⟩ := result
  have hfinishes : _ = s'.finish.isOk := congrArg (fun result => result.2.finish.isOk) hresult
  cases outcome with
  | error fault =>
    have hfails : _ = false := congrArg (fun result => result.1.isOk) hresult
    exact absurd hfails (by decide +kernel)
  | ok value =>
    cases hfinish : s'.finish with
    | error fault =>
      have hfails : _ = false := hfinishes.trans (congrArg Except.isOk hfinish)
      exact absurd hfails (by decide +kernel)
    | ok output =>
      obtain ⟨blocks, htests, hordered, hevaluates⟩ :=
        (condition_short_circuits hstart (.refl s') hfinish).1 true ⟨0⟩ hresult
      have hpushes : ∀ (index : Nat) (block : Block), blocks[index]? = some block →
          block.Pushes (Program.advance? ⟨output.code.chunk, s'.assembler.pool⟩ tape)
            fun answers => (answers.headD false, answers.tail) := by
        intro index block hblock
        obtain ⟨first, _, hfirst, htail, rfl⟩ := List.forall₂_cons_left_iff.mp htests
        obtain ⟨second, _, hsecond, hlast, rfl⟩ := List.forall₂_cons_left_iff.mp htail
        obtain ⟨third, _, hthird, hnil, rfl⟩ := List.forall₂_cons_left_iff.mp hlast
        obtain rfl := List.forall₂_nil_left_iff.mp hnil
        have hmem := List.mem_of_getElem? hblock
        simp only [List.mem_cons, List.not_mem_nil, or_false] at hmem
        rcases hmem with rfl | rfl | rfl
        · exact pushes_tape hstart hfinish hfirst
        · exact pushes_tape hstart hfinish hsecond
        · exact pushes_tape hstart hfinish hthird
      have hwalks := hevaluates tape _ hpushes []
      exact ⟨s', output, blocks, hresult, hfinish, hordered, hwalks [true, true],
        hwalks [false, true]⟩

end Lowering

end StackLowering
