import StackLowering.Proofs.Lockstep
import StackLowering.Proofs.Outline
/-!
Lowering does not depend on what the pool already holds. From two pools a
routine is lowered to code with the same outline: the same instructions with
the same constants, and positions that are the same numbers of instructions.
The outline can be read in any later pool, so it does not matter either what is
lowered before or after the routine.
-/

namespace StackLowering

/-- A routine up to the numbering of constants. -/
structure RoutineOutline where
  owner : Ty
  name : String
  descriptor : String
  code : Outline
  slots : List SlotEntry
  frameSize : Nat

def Routine.outline? (pool : Pool) (routine : Routine) : Option RoutineOutline :=
  (routine.code.outline? pool).map fun code =>
    ⟨routine.owner, routine.name, routine.descriptor, code, routine.slots, routine.frameSize⟩

theorem Routine.outline?_extend {pool larger : Pool} (hpool : pool.Extends larger)
    {routine : Routine} {outline : RoutineOutline} (h : routine.outline? pool = some outline) :
    routine.outline? larger = some outline := by
  obtain ⟨code, hcode, houtline⟩ := Option.map_eq_some_iff.mp h
  rw [outline?, Code.outline?_extend hpool hcode]
  exact congrArg some houtline

theorem Script.size_positions_run (call : Call) (script : Script) :
    (script.run call).positions.size = script.positions.size + call.newLabels := by
  cases call with
  | newLabel => simp [run, Call.newLabels]
  | bind label => simp [run, Call.newLabels]
  | exitFrame =>
    rw [run]
    cases script.openFrames <;> rfl
  | _ => rfl

/-- The assembler is in step with the script, as long as all operands fit. -/
structure Assembler.Tracks (asm : Assembler) (script : Script) : Prop where
  size : asm.positions.size = script.positions.size
  realizes : asm.overflow = none → ∃ code, asm.Realizes script code

namespace Assembler.Tracks

variable {asm : Assembler} {script : Script}

theorem new (pool : Pool) : (Assembler.new pool).Tracks .empty :=
  ⟨rfl, fun _ => ⟨[], .new pool⟩⟩

theorem run (h : asm.Tracks script) {call : Call} (hregular : call.Regular) :
    (call.run asm).Tracks (script.run call) := by
  constructor
  · rw [Call.size_positions_run, Script.size_positions_run, h.size]
  · intro hoverflow
    obtain ⟨hbefore, hencodes⟩ := Call.overflow_run_eq_none.mp hoverflow
    obtain ⟨code, hcode⟩ := h.realizes hbefore
    exact ⟨_, hcode.run hregular hencodes⟩

theorem withPool (h : asm.Tracks script) {larger : Pool} (hpool : asm.pool.Extends larger) :
    Tracks { asm with pool := larger } script := by
  refine ⟨h.size, fun hoverflow => ?_⟩
  obtain ⟨code, hcode⟩ := h.realizes hoverflow
  exact ⟨code, hcode.withPool hpool⟩

theorem outline? (h : asm.Tracks script) {code : Code} (hfinish : asm.finish = .ok code) :
    code.outline? asm.pool = some script.outline := by
  obtain ⟨written, hwritten⟩ := h.realizes (finish_eq_ok.mp hfinish).1
  exact hwritten.outline? hfinish

end Assembler.Tracks

/-- Routines with the same outlines, each in a pool of its own. -/
def SameOutlines (pool other : Pool) (routines others : List Routine) : Prop :=
  ∃ outlines, routines.mapM (Routine.outline? pool) = some outlines ∧
    others.mapM (Routine.outline? other) = some outlines

namespace SameOutlines

variable {pool other larger larger' : Pool} {routines others : List Routine}

theorem extend (h : SameOutlines pool other routines others) (hpool : pool.Extends larger)
    (hother : other.Extends larger') : SameOutlines larger larger' routines others := by
  obtain ⟨outlines, hroutines, hothers⟩ := h
  refine ⟨outlines, ?_, ?_⟩
  · exact mapM_eq_some_mono (fun _ _ => Routine.outline?_extend hpool) hroutines
  · exact mapM_eq_some_mono (fun _ _ => Routine.outline?_extend hother) hothers

theorem append (h : SameOutlines pool other routines others) {routines' others' : List Routine}
    (h' : SameOutlines pool other routines' others') :
    SameOutlines pool other (routines ++ routines') (others ++ others') := by
  obtain ⟨outlines, hroutines, hothers⟩ := h
  obtain ⟨outlines', hroutines', hothers'⟩ := h'
  simp only [mapM_eq_some] at hroutines hothers hroutines' hothers'
  refine ⟨outlines ++ outlines', mapM_eq_some.mpr ?_, mapM_eq_some.mpr ?_⟩
  · exact List.rel_append hroutines hroutines'
  · exact List.rel_append hothers hothers'

theorem cons (h : SameOutlines pool other routines others) {routine routine' : Routine}
    {outline : RoutineOutline} (hroutine : routine.outline? pool = some outline)
    (hroutine' : routine'.outline? other = some outline) :
    SameOutlines pool other (routine :: routines) (routine' :: others) := by
  obtain ⟨outlines, hroutines, hothers⟩ := h
  simp only [mapM_eq_some] at hroutines hothers
  refine ⟨outline :: outlines, mapM_eq_some.mpr ?_, mapM_eq_some.mpr ?_⟩
  · exact .cons hroutine hroutines
  · exact .cons hroutine' hothers

end SameOutlines

/-- Both sides write the same script, into pools of their own. A constant may
have an index that fits on one side only. -/
def Coupling.pools (env : Env) : Coupling env where
  code := fun left locals right others =>
    (∃ script, left.Tracks script ∧ right.Tracks script) ∧
      SameOutlines left.pool right.pool locals others
  registry := fun _ => True
  lenient := True
  size_eq := fun ⟨⟨_, hleft, hright⟩, _⟩ => hright.size.trans hleft.size.symm
  run := fun {left right _ _ call} hregular ⟨⟨script, hleft, hright⟩, hlocals⟩ => by
    refine ⟨⟨script.run call, hleft.run hregular, hright.run hregular⟩, ?_⟩
    rw [Call.pool_run, Call.pool_run]
    exact hlocals.extend (Pool.extends_addAll _ _) (Pool.extends_addAll _ _)
  access := fun _ _ => trivial

namespace Lowering

open Lower

variable {env : Env} {data : Scopes} {recur : Recur}

/-- A routine that is lowered from two pools has the same outline in both. -/
theorem routine_follows_pools {decl : RoutineDecl} {shared other shared' other' : Shared}
    {lowered lowered' : Routine} {nested nested' : List Routine}
    (hbridges : other.bridges = shared.bridges)
    (hfollows : Recur.Follows (Coupling.pools env)
      (State.initial env.nest shared decl.info).data recur recur)
    (h : routine recur decl env shared = (.ok (lowered, nested), shared'))
    (h' : routine recur decl env other = (.ok (lowered', nested'), other')) :
    other'.bridges = shared'.bridges ∧
      SameOutlines shared'.pool other'.pool (lowered :: nested) (lowered' :: nested') := by
  obtain ⟨t, output, hbody, houtput, hresult, rfl⟩ := routine_eq_ok.mp h
  obtain ⟨t', output', hbody', houtput', hresult', rfl⟩ := routine_eq_ok.mp h'
  have hstart : (State.initial env.nest shared decl.info).Coupled (Coupling.pools env) _
      (State.initial env.nest other decl.info) :=
    ⟨⟨⟨.empty, .new _, .new _⟩, [], rfl, rfl⟩, trivial, hbridges, rfl, rfl, rfl, rfl, rfl, rfl⟩
  have hlowered := hfollows.related.routineBody exact_follows.toPlain decl rfl
  rcases hlowered hstart hbody with ⟨final, hfinal, hcoupled⟩ | ⟨_, hfails⟩
  · obtain rfl : t' = final := (Prod.mk.inj (hbody'.symm.trans hfinal)).2
    obtain ⟨⟨script, htracks, htracks'⟩, hlocals⟩ := hcoupled.code
    obtain ⟨code, hcode, houtput⟩ := bind_eq_ok.mp houtput
    obtain ⟨code', hcode', houtput'⟩ := bind_eq_ok.mp houtput'
    cases houtput
    cases houtput'
    obtain ⟨rfl, rfl⟩ := Prod.mk.inj hresult
    obtain ⟨rfl, rfl⟩ := Prod.mk.inj hresult'
    have hlowered := htracks.outline? hcode
    have hlowered' := htracks'.outline? hcode'
    refine ⟨hcoupled.bridges, hlocals.cons (congrArg (Option.map _) hlowered) ?_⟩
    rw [hcoupled.slots]
    exact congrArg (Option.map _) hlowered'
  · exact (hfails () t' hbody').elim

theorem extends_pool_routine (hderives : Derives env recur) {decl : RoutineDecl}
    {shared shared' : Shared} {result : Routine × List Routine}
    (h : routine recur decl env shared = (.ok result, shared')) :
    shared.pool.Extends shared'.pool := by
  obtain ⟨t, output, hbody, _, _, rfl⟩ := hderives.routine h
  exact (hbody.reaches Slots.valid_empty).extends_pool

theorem follows_localRoutine_pools (hderives : Derives env recur)
    (hfollows : ∀ data, Recur.Follows (Coupling.pools env) data recur recur) (method : Method) :
    Lower.Follows (Coupling.pools env) data (localRoutine recur method)
      (localRoutine recur method) := by
  intro s t hst _ s' hrun
  have htype := hst.currentType
  cases hdecl : RoutineDecl.ofMethod? s.currentType method with
  | none =>
    rw [(runs_localRoutine_bodiless hdecl).mp hrun]
    rw [← htype] at hdecl
    exact .inl ⟨t, (runs_localRoutine_bodiless hdecl).mpr rfl, hst⟩
  | some decl =>
    obtain ⟨lowered, nested, shared, hroutine, rfl⟩ := (runs_localRoutine hdecl).mp hrun
    rw [← htype] at hdecl
    rcases hother : routine recur decl env t.shared with ⟨fault | ⟨lowered', nested'⟩, shared'⟩
    · refine .inr ⟨trivial, fun _ t' hrun' => ?_⟩
      obtain ⟨_, _, _, hok, _⟩ := (runs_localRoutine hdecl).mp hrun'
      cases hother.symm.trans hok
    · obtain ⟨hbridges, houtlines⟩ :=
        routine_follows_pools hst.bridges (hfollows _) hroutine hother
      have hpool := extends_pool_routine hderives hroutine
      have hpool' := extends_pool_routine hderives hother
      obtain ⟨⟨script, htracks, htracks'⟩, hlocals⟩ := hst.code
      refine .inl ⟨_, (runs_localRoutine hdecl).mpr ⟨_, _, _, hother, rfl⟩, ?_⟩
      refine { hst with bridges := hbridges, registry := trivial, code := ⟨?_, ?_⟩ }
      · exact ⟨script, htracks.withPool hpool, htracks'.withPool hpool'⟩
      · exact (hlocals.extend hpool hpool').append houtlines

theorem follows_run_pools (env : Env) (depth : Nat) (data : Scopes) :
    Recur.Follows (Coupling.pools env) data (Handlers.standard.run depth)
      (Handlers.standard.run depth) := by
  -- a local routine is lowered one level deeper, with data of its own
  induction depth generalizing data with
  | zero => exact fun tree => .throw _ _
  | succ depth ih =>
    intro tree
    rw [Handlers.run_succ]
    exact (ih data).tree (follows_localRoutine_pools (Derives.run env depth) ih) tree

/-- Where a routine can be lowered from two pools, the bridges are the same
afterwards, and the routine and the routines declared in it have the same
outlines, in the pools that lowering leaves and in any later ones. -/
theorem routine_outline_eq {decl : RoutineDecl} {env : Env} {bridges : Bridges}
    {pool other : Pool} {shared' other' : Shared} {lowered lowered' : Routine}
    {nested nested' : List Routine}
    (h : routine Handlers.standard.process decl env ⟨pool, bridges⟩ =
      (.ok (lowered, nested), shared'))
    (h' : routine Handlers.standard.process decl env ⟨other, bridges⟩ =
      (.ok (lowered', nested'), other')) :
    other'.bridges = shared'.bridges ∧ ∃ outline outlines,
      ∀ later later', shared'.pool.Extends later → other'.pool.Extends later' →
        lowered.outline? later = some outline ∧ lowered'.outline? later' = some outline ∧
          nested.mapM (Routine.outline? later) = some outlines ∧
          nested'.mapM (Routine.outline? later') = some outlines := by
  have hfollows := Recur.Follows.process fun depth => follows_run_pools env depth
    (State.initial env.nest ⟨pool, bridges⟩ decl.info).data
  have hsame : (Shared.mk other bridges).bridges = (Shared.mk pool bridges).bridges := rfl
  obtain ⟨hbridges, all, hall, hall'⟩ := routine_follows_pools hsame hfollows h h'
  rw [mapM_eq_some] at hall hall'
  cases all with
  | nil => cases hall
  | cons outline outlines =>
    obtain ⟨hlowered, hnested⟩ := List.forall₂_cons.mp hall
    obtain ⟨hlowered', hnested'⟩ := List.forall₂_cons.mp hall'
    refine ⟨hbridges, outline, outlines, fun later later' hpool hpool' => ?_⟩
    refine ⟨Routine.outline?_extend hpool hlowered, Routine.outline?_extend hpool' hlowered',
      mapM_eq_some.mpr ?_, mapM_eq_some.mpr ?_⟩
    · exact hnested.imp fun _ _ => Routine.outline?_extend hpool
    · exact hnested'.imp fun _ _ => Routine.outline?_extend hpool'

/-- A loop that writes a text to a field, lowered from an empty pool and from one
with so many constants that the text is loaded in the wide form. -/
theorem routine_outline_eq_wide :
    ∃ decl : RoutineDecl, decl.body = .whileLoop none (.readLocal "more" Ty.bool)
        (.writeField (.object "Main") "label" Ty.text none (.literal (.text "again"))) false ∧
      ∃ pool : Pool, pool.size = 256 ∧ ∃ lowered nested shared' lowered' nested' other',
        routine Handlers.standard.process decl ⟨.empty, {}⟩ ⟨.empty, .empty⟩ =
          (.ok (lowered, nested), shared') ∧
        routine Handlers.standard.process decl ⟨.empty, {}⟩ ⟨pool, .empty⟩ =
          (.ok (lowered', nested'), other') ∧
        lowered.code.chunk.size + 1 = lowered'.code.chunk.size ∧
        ∃ outline, lowered.outline? shared'.pool = some outline ∧
          lowered'.outline? other'.pool = some outline := by
  refine ⟨⟨.object "Main", "run", [⟨"more", Ty.bool⟩], Ty.void, true, _⟩, rfl,
    Pool.empty.addAll ((List.range 256).map fun value => .int (Int32.ofNat value)),
    by decide +kernel, ?_⟩
  generalize hresult : routine Handlers.standard.process _ _ ⟨.empty, .empty⟩ = result
  generalize hresult' : routine Handlers.standard.process _ _ ⟨Pool.addAll _ _, .empty⟩ = result'
  obtain ⟨lowered, shared', rfl⟩ := exists_ok hresult (by decide +kernel)
  obtain ⟨lowered', other', rfl⟩ := exists_ok hresult' (by decide +kernel)
  have hsize : _ = lowered.1.code.chunk.size := congrArg (fun result =>
    result.1.toOption.elim 0 fun result => result.1.code.chunk.size) hresult
  have hsize' : _ = lowered'.1.code.chunk.size := congrArg (fun result =>
    result.1.toOption.elim 0 fun result => result.1.code.chunk.size) hresult'
  obtain ⟨_, outline, _, houtline⟩ := routine_outline_eq hresult hresult'
  obtain ⟨hlowered, hlowered', _⟩ := houtline _ _ (.refl _) (.refl _)
  refine ⟨lowered.1, lowered.2, shared', lowered'.1, lowered'.2, other', rfl, rfl, ?_,
    outline, hlowered, hlowered'⟩
  rw [← hsize, ← hsize']
  decide +kernel

end Lowering

end StackLowering
