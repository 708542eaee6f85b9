import StackLowering.Proofs.Correctness
/-!
Where the dispatch of a switch over ints goes. A dense table is indexed by the
key, a sparse one is searched for it. The arms that have code of their own get
labels of their own, in the order of their keys and in either encoding alike. A
key without such an arm goes to the default. So for every key both encodings
select the start of the same body.
-/

namespace StackLowering

namespace OperandOf

variable {T U : Type}

/-- The target that a switch takes for a key. Other instructions select none. -/
def select? (operand : OperandOf T) (key : Int32) : Option T :=
  match operand with
  | table otherwise low high targets =>
    if low.toInt ≤ key.toInt ∧ key.toInt ≤ high.toInt then
      targets[(key.toInt - low.toInt).toNat]?
    else some otherwise
  | lookup otherwise pairs => some ((pairs.lookup key).getD otherwise)
  | _ => Option.none

/-- The keys of a sparse table are in strictly ascending order. -/
def KeysAscend : OperandOf T → Prop
  | lookup _ pairs => (pairs.map Prod.fst).IsChain fun key next => key.toInt < next.toInt
  | _ => True

theorem lookup_mapTargets (f : T → U) (pairs : List (Int32 × T)) (key : Int32) :
    (pairs.map fun pair => (pair.1, f pair.2)).lookup key = (pairs.lookup key).map f := by
  induction pairs with
  | nil => rfl
  | cons pair rest ih =>
    rw [List.map_cons, List.lookup_cons, List.lookup_cons, ih]
    cases key == pair.1 <;> rfl

theorem select?_map (f : T → U) (operand : OperandOf T) (key : Int32) :
    (operand.map f).select? key = (operand.select? key).map f := by
  cases operand with
  | table otherwise low high targets =>
    simp only [map, select?, List.getElem?_map]
    split_ifs <;> rfl
  | lookup otherwise pairs =>
    simp only [map, select?, lookup_mapTargets, Option.map_some, Option.getD_map]
  | _ => rfl

theorem keysAscend_map (f : T → U) {operand : OperandOf T} (h : operand.KeysAscend) :
    (operand.map f).KeysAscend := by
  cases operand with
  | lookup otherwise pairs =>
    rw [map, KeysAscend, List.map_map]
    exact h
  | _ => exact trivial

end OperandOf

variable {index : Nat} {key : Int32}

namespace Switch

section Entries

variable {T : Type} {entries : List (Int32 × T)}

theorem lookup_eq_some_of_mem {entry : Int32 × T} (hkeys : (entries.map Prod.fst).Nodup)
    (h : entry ∈ entries) : entries.lookup entry.1 = some entry.2 := by
  induction entries with
  | nil => cases h
  | cons first rest ih =>
    obtain ⟨hnew, hrest⟩ := List.nodup_cons.mp hkeys
    rw [List.lookup_cons]
    rcases List.mem_cons.mp h with rfl | hmem
    · simp
    · have hne : entry.1 ≠ first.1 := by
        intro heq
        apply hnew
        rw [← heq]
        exact List.mem_map_of_mem hmem
      rw [beq_false_of_ne hne]
      exact ih hrest hmem

theorem lookup_eq_none_of_notMem (h : key ∉ entries.map Prod.fst) :
    entries.lookup key = none := by
  rw [List.lookup_eq_none_iff]
  intro entry hmem
  have hne : key ≠ entry.1 := by
    rintro rfl
    exact h (List.mem_map_of_mem hmem)
  simpa using hne

/-- Entries that lead to the default anyway can be left out. -/
theorem getD_lookup_filter [DecidableEq T] (hkeys : (entries.map Prod.fst).Nodup) (otherwise : T)
    (key : Int32) :
    ((entries.filter (·.2 ≠ otherwise)).lookup key).getD otherwise =
      (entries.lookup key).getD otherwise := by
  have hkept : ((entries.filter (·.2 ≠ otherwise)).map Prod.fst).Nodup :=
    hkeys.sublist (List.filter_sublist.map _)
  by_cases hmem : key ∈ entries.map Prod.fst
  · obtain ⟨entry, hentry, rfl⟩ := List.mem_map.mp hmem
    rw [lookup_eq_some_of_mem hkeys hentry]
    by_cases htarget : entry.2 = otherwise
    · rw [lookup_eq_none_of_notMem]
      · exact htarget.symm
      · intro hin
        obtain ⟨other, hother, hkey⟩ := List.mem_map.mp hin
        obtain ⟨hmem', hne⟩ := List.mem_filter.mp hother
        have heq : some other.2 = some entry.2 := by
          rw [← lookup_eq_some_of_mem hkeys hmem', ← lookup_eq_some_of_mem hkeys hentry, hkey]
        simp [Option.some.inj heq, htarget] at hne
    · rw [lookup_eq_some_of_mem hkept (List.mem_filter.mpr ⟨hentry, by simpa using htarget⟩)]
  · rw [lookup_eq_none_of_notMem hmem, lookup_eq_none_of_notMem]
    intro hin
    exact hmem ((List.filter_sublist.map Prod.fst).mem hin)

/-- The keys follow one another without a gap. -/
def Consecutive (low : Int) (entries : List (Int32 × T)) : Prop :=
  ∀ (index : Nat) (entry : Int32 × T), entries[index]? = some entry → entry.1.toInt = low + index

theorem Consecutive.nodup {low : Int} (h : Consecutive low entries) :
    (entries.map Prod.fst).Nodup := by
  rw [List.nodup_iff_getElem?_ne_getElem?]
  intro i j hij hj heq
  rw [List.length_map] at hj
  rw [List.getElem?_map, List.getElem?_map, List.getElem?_eq_getElem (hij.trans hj),
    List.getElem?_eq_getElem hj] at heq
  have hi := h i _ (List.getElem?_eq_getElem (hij.trans hj))
  have hj := h j _ (List.getElem?_eq_getElem hj)
  have hkey : (entries[i]).1 = (entries[j]).1 := Option.some.inj heq
  rw [hkey] at hi
  omega

/-- A dense table has its targets where the keys lead to. -/
theorem Consecutive.select?_table {low high : Int32} (h : Consecutive low.toInt entries)
    (hlength : (entries.length : Int) = high.toInt - low.toInt + 1) (otherwise : T)
    (key : Int32) :
    (OperandOf.table otherwise low high (entries.map Prod.snd)).select? key =
      some ((entries.lookup key).getD otherwise) := by
  rw [OperandOf.select?]
  split_ifs with hrange
  · obtain ⟨hlow, hhigh⟩ := hrange
    have hindex : (key.toInt - low.toInt).toNat < entries.length := by omega
    have hentry := List.getElem?_eq_getElem hindex
    have hkey : (entries[(key.toInt - low.toInt).toNat]).1 = key := by
      apply Int32.toInt_inj.mp
      have hat := h _ _ hentry
      omega
    have hlookup := lookup_eq_some_of_mem h.nodup (List.getElem_mem hindex)
    rw [hkey] at hlookup
    rw [List.getElem?_map, hentry, hlookup]
    rfl
  · rw [lookup_eq_none_of_notMem]
    · rfl
    · intro hmem
      obtain ⟨entry, hentry, rfl⟩ := List.mem_map.mp hmem
      obtain ⟨index, hat⟩ := List.getElem?_of_mem hentry
      have hindex := (List.getElem?_eq_some_iff.mp hat).1
      have hkey := h index entry hat
      omega

end Entries

theorem toInt_of_getElem?_keysBetween {low high : Int32}
    (h : (keysBetween low high)[index]? = some key) : key.toInt = low.toInt + 1 + index := by
  obtain ⟨hindex, rfl⟩ := List.getElem?_eq_some_iff.mp h
  simp only [keysBetween, List.length_map, List.length_range] at hindex
  simp only [keysBetween, List.getElem_map, List.getElem_range]
  have hlow := low.le_toInt
  have hhigh := high.toInt_lt
  apply Int32.toInt_ofInt_of_le <;> omega

/-- Without gaps, the keys are consecutive. -/
theorem consecutive_fillGaps {arms : List (Int32 × Tree)} {first : Int32 × Tree}
    (hascending : Ascending arms) (hfirst : arms.head? = some first) :
    Consecutive first.1.toInt (fillGaps arms) := by
  fun_induction fillGaps arms generalizing first with
  | case1 key body next nextBody rest ih =>
    obtain rfl := Option.some.inj hfirst
    obtain ⟨hlt, hrest⟩ := List.isChain_cons_cons.mp hascending
    have hbetween : ((keysBetween key next).length : Int) = next.toInt - key.toInt - 1 :=
      length_keysBetween hlt
    intro index entry hentry
    cases index with
    | zero =>
      obtain rfl := Option.some.inj hentry
      simp
    | succ index =>
      rw [List.cons_append, List.getElem?_cons_succ] at hentry
      by_cases hindex : index < (keysBetween key next).length
      · rw [List.getElem?_append_left (by simpa using hindex), List.getElem?_map] at hentry
        obtain ⟨middle, hmiddle, rfl⟩ := Option.map_eq_some_iff.mp hentry
        have hkey := toInt_of_getElem?_keysBetween hmiddle
        dsimp only
        omega
      · rw [List.getElem?_append_right (by simpa using hindex), List.length_map] at hentry
        have hkey := ih hrest rfl _ _ hentry
        dsimp only at hkey ⊢
        omega
  | case2 arms hsmall =>
    cases arms with
    | nil => cases hfirst
    | cons arm rest =>
      cases rest with
      | nil =>
        obtain rfl := Option.some.inj hfirst
        intro index entry hentry
        cases index with
        | zero =>
          obtain rfl := Option.some.inj hentry
          simp
        | succ index => cases hentry
      | cons next rest => exact (hsmall _ _ _ _ _ rfl).elim

/-- The arms that an encoding dispatches on. -/
def Encoding.arrange : Encoding → List (Int32 × Tree) → List (Int32 × Tree)
  | table, arms => fillGaps arms
  | lookup, arms => arms

theorem eq_arrange_of_dispatchedArms {encoding : Encoding} {maxEntries : Nat}
    {arms dispatched : List (Int32 × Tree)}
    (h : Lowering.dispatchedArms encoding maxEntries arms = .ok dispatched) :
    dispatched = encoding.arrange arms := by
  cases encoding with
  | lookup => exact (Except.ok.inj h).symm
  | table =>
    cases arms with
    | nil => exact (Except.ok.inj h).symm
    | cons arm rest =>
      have hlast := List.getLast?_eq_some_getLast (List.cons_ne_nil arm rest)
      simp only [Lowering.dispatchedArms, List.head?_cons, hlast] at h
      split_ifs at h
      exact (Except.ok.inj h).symm

/-- An arm with code of its own, and the label it is dispatched to. -/
structure Case where
  key : Int32
  body : Tree
  label : Label

end Switch

/-- What is emitted on the way is among the instructions of the finished code. -/
theorem Image.Passes.mem_instructions {image : Image} {s t : State} {call : Call} {op : Opcode}
    {operand : OperandOf Label} {code : Code} (h : image.Passes s)
    (h' : image.Passes (s.emits call)) (hproper : call.Proper)
    (hinstr : call.instruction? s.assembler.pool = some (op, operand))
    (hleads : (s.emits call).Leads t) (hfinish : t.assembler.finish = .ok code) :
    (⟨s.offset, op, operand.map t.assembler.positionOf⟩ : Instruction) ∈
      code.chunk.instructions := by
  obtain ⟨_, hencodes⟩ := Call.overflow_run_eq_none.mp h'.overflow
  obtain ⟨written, hwritten⟩ := h.coded
  have hoverflow := (Assembler.finish_eq_ok.mp hfinish).1
  obtain ⟨added, hadded⟩ :=
    (hleads.reaches h'.valid).holds (hwritten.run hproper hencodes) hoverflow
  have hmem : (⟨s.offset, op, operand⟩ : InstructionOf Label) ∈ call.written s.assembler := by
    rw [Call.written, hinstr]
    exact List.mem_cons_self
  rw [(hadded.finish hfinish).1]
  exact List.mem_map_of_mem (List.mem_append_left _ (List.mem_append_right _ hmem))

/-- A finished routine lies on the way to its own code. -/
theorem State.Leads.passes {decl : RoutineDecl} {env : Env} {shared : Shared} {t : State}
    {output : RoutineOutput} (h : (State.initial env.nest shared decl.info).Leads t)
    (hfinish : t.finish = .ok output) :
    (t.image decl env output).Passes (State.initial env.nest shared decl.info) ∧
      (t.image decl env output).Passes t := by
  have hoverflow := (Assembler.finish_eq_ok.mp (State.finish_eq_ok hfinish).1).1
  have hsteps := h.reaches Slots.valid_empty
  obtain ⟨code, hcoded⟩ := hsteps.holds (Assembler.holds_new shared.pool) hoverflow
  have hend : (t.image decl env output).Passes t :=
    State.passes_image hfinish (hsteps.valid Slots.valid_empty) ⟨_, hcoded⟩
  exact ⟨hend.of_leads h Slots.valid_empty ⟨[], Assembler.holds_new shared.pool⟩, hend⟩

theorem State.Leads.passes_part {decl : RoutineDecl} {env : Env} {shared : Shared} {s s' t : State}
    {output : RoutineOutput} (hpart : s.Leads s')
    (hstart : (State.initial env.nest shared decl.info).Leads s) (hrest : s'.Leads t)
    (hfinish : t.finish = .ok output) :
    (t.image decl env output).Passes s ∧ (t.image decl env output).Passes s' := by
  obtain ⟨hinitial, ht⟩ := (hstart.trans (hpart.trans hrest)).passes hfinish
  have hs := hinitial.between ht hstart (hpart.trans hrest)
  exact ⟨hs, hs.between ht hpart hrest⟩

namespace State

variable {s m s' : State}

/-- The arms with code of their own. Their labels are handed out in order. -/
def cases : List (Int32 × Tree) → State → List Switch.Case
  | [], _ => []
  | arm :: rest, s =>
    if arm.2.isPureRedirect then s.cases rest
    else ⟨arm.1, arm.2, s.label 0⟩ :: (s.emits .newLabel).cases rest

theorem cases_append_redirects (keys : List Int32) (arms : List (Int32 × Tree)) (s : State) :
    s.cases (keys.map (·, Tree.redirect) ++ arms) = s.cases arms := by
  induction keys with
  | nil => rfl
  | cons key rest ih => exact ih

theorem cases_fillGaps (arms : List (Int32 × Tree)) (s : State) :
    s.cases (Switch.fillGaps arms) = s.cases arms := by
  fun_induction Switch.fillGaps arms generalizing s with
  | case1 key body next nextBody rest ih =>
    rw [List.cons_append, cases, cases_append_redirects, cases_append_redirects, ih, ih, ← cases]
  | case2 => rfl

theorem cases_arrange (encoding : Switch.Encoding) (arms : List (Int32 × Tree)) (s : State) :
    s.cases (encoding.arrange arms) = s.cases arms := by
  cases encoding with
  | table => exact cases_fillGaps arms s
  | lookup => rfl

theorem bodies_cases (arms : List (Int32 × Tree)) (s : State) :
    (s.cases arms).map (fun case => (case.key, case.body)) =
      arms.filter (!·.2.isPureRedirect) := by
  induction arms generalizing s with
  | nil => rfl
  | cons arm rest ih =>
    rw [cases]
    split_ifs with hredirect
    · rw [ih, List.filter_cons_of_neg (by simp [hredirect])]
    · rw [List.map_cons, ih, List.filter_cons_of_pos (by simp [hredirect])]

theorem le_of_mem_cases {arms : List (Int32 × Tree)} {case : Switch.Case}
    (h : case ∈ s.cases arms) : s.labelCount ≤ case.label.id := by
  induction arms generalizing s with
  | nil => cases h
  | cons arm rest ih =>
    rw [cases] at h
    split_ifs at h
    · exact ih h
    · rcases List.mem_cons.mp h with rfl | hmem
      · exact le_label 0 s
      · have hcount := ((BindsOnly.refl [] s).newLabels 1).count
        exact hcount.trans (ih hmem)

theorem labels_cases_nodup (arms : List (Int32 × Tree)) (s : State) :
    ((s.cases arms).map Switch.Case.label).Nodup := by
  induction arms generalizing s with
  | nil => exact .nil
  | cons arm rest ih =>
    rw [cases]
    split_ifs
    · exact ih s
    · apply List.nodup_cons.mpr
      refine ⟨?_, ih _⟩
      intro hmem
      obtain ⟨case, hcase, hlabel⟩ := List.mem_map.mp hmem
      have hle : (s.newLabels 1).labelCount ≤ case.label.id := le_of_mem_cases hcase
      rw [labelCount_newLabels, hlabel] at hle
      exact Nat.not_succ_le_self _ hle

variable {otherwise : Label}

theorem Pending.armTargets {label : Label} (h : s.Pending label) (arms : List (Int32 × Tree)) :
    (s.armTargets otherwise arms).2.Pending label := by
  obtain ⟨count, hcount⟩ := @newLabels_of_armTargets otherwise arms _ s _ rfl
  rw [hcount]
  exact ((BindsOnly.refl [] s).newLabels count).pending h List.not_mem_nil

theorem pending_cases {arms : List (Int32 × Tree)} {case : Switch.Case}
    (h : case ∈ s.cases arms) : (s.armTargets otherwise arms).2.Pending case.label := by
  induction arms generalizing s with
  | nil => cases h
  | cons arm rest ih =>
    rw [cases] at h
    rw [armTargets]
    split_ifs at h ⊢
    · exact ih h
    · rcases List.mem_cons.mp h with rfl | hmem
      · have hnew : (s.emits .newLabel).Pending (s.label 0) :=
          pending_newLabels s (Nat.zero_lt_one)
        exact hnew.armTargets rest
      · exact ih hmem

/-- Apart from the default, the cases are what is dispatched to. -/
theorem filter_armTargets (hknown : otherwise.id < s.labelCount) (arms : List (Int32 × Tree)) :
    (s.armTargets otherwise arms).1.filter (·.2 ≠ otherwise) =
      (s.cases arms).map fun case => (case.key, case.label) := by
  induction arms generalizing s with
  | nil => rfl
  | cons arm rest ih =>
    rw [armTargets, cases]
    split_ifs
    · rw [List.filter_cons_of_neg (by simp), ih hknown]
    · have hne : s.label 0 ≠ otherwise := by
        rintro rfl
        exact Nat.lt_irrefl _ hknown
      have hcount : s.labelCount ≤ (s.emits .newLabel).labelCount :=
        ((BindsOnly.refl [] s).newLabels 1).count
      rw [List.filter_cons_of_pos (by simpa using hne), List.map_cons]
      rw [ih (Nat.lt_of_lt_of_le hknown hcount)]

end State

namespace Switch

open Lower

variable {env : Env} {recur : Recur} {cases : List Case} {starts : List (Int32 × Nat)}
  {s m s' : State}

/-- Between two states, the body is lowered from this offset on. -/
def StartsAt (env : Env) (recur : Recur) (body : Tree) (s s' : State) (start : Nat) : Prop :=
  ∃ (label : Label) (m m' : State), s.Leads m ∧
    Runs (recur.inScope body) env (m.emits (.bind label)) () m' ∧ m'.Leads s' ∧ m.offset = start

/-- The bodies of the cases are lowered one after another. Each starts where
its label is bound. -/
inductive Layout (env : Env) (recur : Recur) :
    List Case → List (Int32 × Nat) → State → State → Prop
  | nil {s : State} : Layout env recur [] [] s s
  | cons {case : Case} {rest : List Case} {starts : List (Int32 × Nat)} {s m s' : State}
      (hbody : Runs (recur.inScope case.body) env (s.emits (.bind case.label)) () m)
      (hrest : Layout env recur rest starts m s') :
      Layout env recur (case :: rest) ((case.key, s.offset) :: starts) s s'

/-- Arms that share the label of the default have no code of their own. -/
theorem layout_of_runs {otherwise : Label} {u : State} (hknown : otherwise.id < u.labelCount)
    {arms : List (Int32 × Tree)}
    (h : Runs ((arms.zip (u.armTargets otherwise arms).1).forM fun (arm, target) =>
      if target.2 = otherwise then pure ()
      else do
        mark target.2
        recur.inScope arm.2) env s () s') :
    ∃ starts, Layout env recur (u.cases arms) starts s s' := by
  induction arms generalizing s u with
  | nil =>
    obtain ⟨_, rfl⟩ := runs_pure.mp h
    exact ⟨[], .nil⟩
  | cons arm rest ih =>
    rw [State.armTargets] at h
    rw [State.cases]
    split_ifs at h ⊢
    · obtain ⟨_, m, hshared, hrest⟩ := runs_bind.mp h
      dsimp only at hshared
      rw [if_pos rfl] at hshared
      obtain ⟨_, rfl⟩ := runs_pure.mp hshared
      exact ih hknown hrest
    · have hne : u.label 0 ≠ otherwise := by
        rintro rfl
        exact Nat.lt_irrefl _ hknown
      have hcount : u.labelCount ≤ (u.emits .newLabel).labelCount :=
        ((State.BindsOnly.refl [] u).newLabels 1).count
      obtain ⟨_, m, hcase, hrest⟩ := runs_bind.mp h
      dsimp only at hcase
      rw [if_neg hne] at hcase
      simp only [runs_bind, runs_mark] at hcase
      obtain ⟨_, _, rfl, hbody⟩ := hcase
      obtain ⟨starts, hlayout⟩ := ih (Nat.lt_of_lt_of_le hknown hcount) hrest
      exact ⟨_, .cons hbody hlayout⟩

namespace Layout

theorem pending (h : Layout env recur cases starts s s') (hrecur : Derives env recur)
    {label : Label} (hlabel : s.Pending label) (hnot : label ∉ cases.map Case.label) :
    s'.Pending label := by
  induction h with
  | nil => exact hlabel
  | cons hbody _ ih =>
    obtain ⟨hne, hrest⟩ := not_or.mp (mt List.mem_cons.mpr hnot)
    apply ih _ hrest
    exact (hrecur.inScope hbody).bindsOnly.pending (hlabel.bind hne) List.not_mem_nil

theorem pending_tail {case : Case} {rest : List Case} (hrecur : Derives env recur)
    (hbody : Runs (recur.inScope case.body) env (s.emits (.bind case.label)) () m)
    (hpending : ∀ other ∈ case :: rest, s.Pending other.label)
    (hlabels : ((case :: rest).map Case.label).Nodup) :
    ∀ other ∈ rest, m.Pending other.label := by
  intro other hmem
  have hne : other.label ≠ case.label := by
    intro heq
    apply (List.nodup_cons.mp hlabels).1
    rw [← heq]
    exact List.mem_map_of_mem hmem
  have hwait := (hpending other (List.mem_cons_of_mem _ hmem)).bind hne
  exact (hrecur.inScope hbody).bindsOnly.pending hwait List.not_mem_nil

theorem leads (h : Layout env recur cases starts s s') (hrecur : Derives env recur)
    (hpending : ∀ case ∈ cases, s.Pending case.label) (hlabels : (cases.map Case.label).Nodup) :
    s.Leads s' := by
  induction h with
  | nil => exact .refl _
  | @cons case rest starts s m s' hbody hrest ih =>
    have hcase := State.Leads.bind (hpending case List.mem_cons_self)
    have hrest := ih (pending_tail hrecur hbody hpending hlabels) hlabels.of_cons
    exact hcase.trans (((hrecur.inScope hbody).leads rfl).trans hrest)

/-- In finished code, the labels of the cases stand for the starts of their bodies. -/
theorem starts_eq {image : Image} (h : Layout env recur cases starts s s')
    (hrecur : Derives env recur) (hpending : ∀ case ∈ cases, s.Pending case.label)
    (hlabels : (cases.map Case.label).Nodup) (hs : image.Passes s) (hs' : image.Passes s') :
    starts = cases.map fun case => (case.key, image.position case.label) := by
  induction h with
  | nil => rfl
  | @cons case rest starts s m s' hbody hrest ih =>
    have hcase := hpending case List.mem_cons_self
    have hlater := pending_tail hrecur hbody hpending hlabels
    have hafter := (hrecur.inScope hbody).leads rfl
    have hleads := hrest.leads hrecur hlater hlabels.of_cons
    have hbound := hs.between hs' (.bind hcase) (hafter.trans hleads)
    have hm := hbound.between hs' hafter hleads
    rw [List.map_cons, ih hlater hlabels.of_cons hm hs', hbound.position_bind hcase.known]

/-- The body of every case is lowered at its start. -/
theorem startsAt (h : Layout env recur cases starts s s') (hrecur : Derives env recur)
    (hpending : ∀ case ∈ cases, s.Pending case.label) (hlabels : (cases.map Case.label).Nodup)
    (hkeys : (cases.map Case.key).Nodup) :
    ∀ case ∈ cases, ∃ start, starts.lookup case.key = some start ∧
      StartsAt env recur case.body s s' start := by
  induction h with
  | nil => exact List.forall_mem_nil _
  | @cons case rest starts s m s' hbody hrest ih =>
    have hlater := pending_tail hrecur hbody hpending hlabels
    have hleads := hrest.leads hrecur hlater hlabels.of_cons
    have hbind := State.Leads.bind (hpending case List.mem_cons_self)
    intro other hmem
    rw [List.lookup_cons]
    rcases List.mem_cons.mp hmem with rfl | hmem
    · refine ⟨s.offset, by simp, other.label, s, m, .refl s, hbody, hleads, rfl⟩
    · have hne : other.key ≠ case.key := by
        intro heq
        apply (List.nodup_cons.mp hkeys).1
        rw [← heq]
        exact List.mem_map_of_mem hmem
      obtain ⟨start, hstart, label, n, n', hbefore, hother, hafter, hoffset⟩ :=
        ih hlater hlabels.of_cons hkeys.of_cons other hmem
      rw [beq_false_of_ne hne]
      have hcase := hbind.trans ((hrecur.inScope hbody).leads rfl)
      exact ⟨start, hstart, label, n, n', hcase.trans hbefore, hother, hafter, hoffset⟩

theorem keys_eq (h : Layout env recur cases starts s s') :
    starts.map Prod.fst = cases.map Case.key := by
  induction h with
  | nil => rfl
  | cons _ _ ih => rw [List.map_cons, List.map_cons, ih]

end Layout

/-- What a dispatch writes behind its opcode. -/
def Encoding.operand (encoding : Encoding) (otherwise : Label)
    (targets : List (Int32 × Label)) : OperandOf Label :=
  match encoding, targets.head?, targets.getLast? with
  | .table, some (low, _), some (high, _) =>
    .table otherwise low high (targets.map Prod.snd)
  | _, _, _ => .lookup otherwise targets

theorem instruction?_dispatchCall (encoding : Encoding) (otherwise : Label)
    (targets : List (Int32 × Label)) (pool : Pool) :
    ∃ op, (dispatchCall encoding otherwise targets).instruction? pool =
      some (op, encoding.operand otherwise targets) := by
  unfold dispatchCall Encoding.operand
  cases encoding with
  | lookup => exact ⟨_, rfl⟩
  | table =>
    rcases targets.head? with _ | ⟨low, _⟩
    · exact ⟨_, rfl⟩
    · rcases targets.getLast? with _ | ⟨high, _⟩
      · exact ⟨_, rfl⟩
      · exact ⟨_, rfl⟩

theorem Consecutive.congr {T U : Type} {low : Int} {entries : List (Int32 × T)}
    {others : List (Int32 × U)} (h : Consecutive low entries)
    (hkeys : others.map Prod.fst = entries.map Prod.fst) : Consecutive low others := by
  intro index other hother
  have hkey : (entries[index]?).map Prod.fst = some other.1 := by
    rw [← List.getElem?_map, ← hkeys, List.getElem?_map, hother]
    rfl
  obtain ⟨entry, hentry, heq⟩ := Option.map_eq_some_iff.mp hkey
  rw [← heq]
  exact h index entry hentry

section Ends

variable {T U : Type} {entries : List (Int32 × T)} {others : List (Int32 × U)}

theorem head?_of_keys (hkeys : others.map Prod.fst = entries.map Prod.fst) {first : Int32 × T}
    (h : entries.head? = some first) : ∃ target, others.head? = some (first.1, target) := by
  have hhead := congrArg List.head? hkeys
  rw [List.head?_map, List.head?_map, h] at hhead
  obtain ⟨⟨_, target⟩, hother, rfl⟩ := Option.map_eq_some_iff.mp hhead
  exact ⟨target, hother⟩

theorem getLast?_of_keys (hkeys : others.map Prod.fst = entries.map Prod.fst) {last : Int32 × T}
    (h : entries.getLast? = some last) : ∃ target, others.getLast? = some (last.1, target) := by
  have hend := congrArg List.getLast? hkeys
  rw [List.getLast?_map, List.getLast?_map, h] at hend
  obtain ⟨⟨_, target⟩, hother, rfl⟩ := Option.map_eq_some_iff.mp hend
  exact ⟨target, hother⟩

end Ends

theorem Ascending.nodup {arms : List (Int32 × Tree)} (h : Ascending arms) :
    (arms.map Prod.fst).Nodup := by
  have hpairs : arms.Pairwise fun arm next => arm.1.toInt < next.1.toInt := by
    rw [← List.isChain_iff_pairwise]
    exact h
  apply List.pairwise_map.mpr
  apply hpairs.imp
  intro arm next hlt heq
  rw [heq] at hlt
  omega

end Switch

namespace State

variable {s : State} {otherwise : Label} {arms : List (Int32 × Tree)}

/-- The dispatch on ascending arms in an encoding, with labels from the state. -/
def dispatchOperand (encoding : Switch.Encoding) (otherwise : Label) (arms : List (Int32 × Tree))
    (s : State) : OperandOf Label :=
  encoding.operand otherwise (s.armTargets otherwise (encoding.arrange arms)).1

/-- The dispatch is written. -/
def dispatched (encoding : Switch.Encoding) (otherwise : Label) (arms : List (Int32 × Tree))
    (s : State) : State :=
  (s.armTargets otherwise (encoding.arrange arms)).2.emits
    (dispatchCall encoding otherwise (s.armTargets otherwise (encoding.arrange arms)).1)

theorem offset_armTargets (otherwise : Label) (arms : List (Int32 × Tree)) (s : State) :
    (s.armTargets otherwise arms).2.offset = s.offset := by
  obtain ⟨count, hcount⟩ := @newLabels_of_armTargets otherwise arms _ s _ rfl
  rw [hcount, offset_newLabels]

theorem Leads.armTargets {targets : List (Int32 × Label)} {s' : State}
    (h : s.armTargets otherwise arms = (targets, s')) : s.Leads s' := by
  obtain ⟨count, rfl⟩ := newLabels_of_armTargets h
  exact .newLabels count s

theorem map_fst_arrange (encoding : Switch.Encoding) (otherwise : Label)
    (arms : List (Int32 × Tree)) (s : State) :
    (s.armTargets otherwise (encoding.arrange arms)).1.map Prod.fst =
      (encoding.arrange arms).map Prod.fst :=
  map_fst_armTargets rfl

/-- In a dense table, the targets stand under consecutive keys. -/
theorem dispatchOperand_table (hascending : Switch.Ascending arms) (hsome : arms ≠ []) :
    ∃ low high : Int32, ∃ targets : List (Int32 × Label),
      (s.armTargets otherwise (Switch.fillGaps arms)).1 = targets ∧
      s.dispatchOperand .table otherwise arms =
        .table otherwise low high (targets.map Prod.snd) ∧
      Switch.Consecutive low.toInt targets ∧
      (targets.length : Int) = high.toInt - low.toInt + 1 := by
  obtain ⟨first, rest, rfl⟩ := List.exists_cons_of_ne_nil hsome
  have hkeys := map_fst_arrange .table otherwise (first :: rest) s
  have hlast := List.getLast?_eq_some_getLast hsome
  obtain ⟨low, hlow⟩ := Switch.head?_of_keys hkeys (Switch.head?_fillGaps _)
  obtain ⟨high, hhigh⟩ := Switch.getLast?_of_keys hkeys
    ((Switch.getLast?_fillGaps _).trans hlast)
  have hlength := congrArg List.length hkeys
  rw [List.length_map, List.length_map] at hlength
  refine ⟨first.1, ((first :: rest).getLast hsome).1, _, rfl, ?_,
    (Switch.consecutive_fillGaps hascending rfl).congr hkeys, ?_⟩
  · simp only [dispatchOperand, Switch.Encoding.operand, hlow, hhigh]
    rfl
  · exact (congrArg Nat.cast hlength).trans (Switch.length_fillGaps hascending rfl hlast)

/-- Both encodings go to the case with the key, or else to the default. -/
theorem select?_dispatchOperand (encoding : Switch.Encoding) (hascending : Switch.Ascending arms)
    (hknown : otherwise.id < s.labelCount) (key : Int32) :
    (s.dispatchOperand encoding otherwise arms).select? key =
      some ((((s.cases arms).map fun case => (case.key, case.label)).lookup key).getD
        otherwise) := by
  rw [← cases_arrange encoding, ← filter_armTargets hknown]
  have hkeys := map_fst_arrange encoding otherwise arms s
  cases encoding with
  | lookup =>
    rw [Switch.getD_lookup_filter (hkeys ▸ hascending.nodup)]
    rfl
  | table =>
    by_cases hsome : arms = []
    · subst hsome
      rfl
    · obtain ⟨low, high, targets, htargets, hoperand, hgaps, hlength⟩ :=
        dispatchOperand_table (s := s) hascending hsome
      rw [hoperand, Switch.Encoding.arrange, htargets, Switch.getD_lookup_filter hgaps.nodup]
      exact hgaps.select?_table hlength otherwise key

theorem keysAscend_dispatchOperand (encoding : Switch.Encoding)
    (hascending : Switch.Ascending arms) :
    (s.dispatchOperand encoding otherwise arms).KeysAscend := by
  cases encoding with
  | lookup =>
    change List.IsChain _ ((s.armTargets otherwise arms).1.map Prod.fst)
    rw [map_fst_armTargets rfl, List.isChain_map]
    exact hascending
  | table =>
    by_cases hsome : arms = []
    · subst hsome
      exact .nil
    · obtain ⟨low, high, targets, _, hoperand, _⟩ :=
        dispatchOperand_table (s := s) hascending hsome
      rw [hoperand]
      trivial

end State

namespace Switch

open Lower

variable {env : Env} {recur : Recur} {s s' : State}

/-- The arm is for the key. -/
def HasKey (key : Int32) (arm : Arm) : Prop :=
  ∃ value, arm.value = some value ∧ armKey value = .ok key

theorem mem_of_splitArms {switch : Tree} {found otherwise : Option Tree} {arms : List Arm}
    {keyed : List KeyedArm} (h : splitArms switch found arms = .ok (keyed, otherwise)) :
    (∀ key body, (key, body) ∈ keyed.map (fun arm => (arm.key, arm.body)) ↔
      ∃ arm ∈ arms, HasKey key arm ∧ arm.body = body) ∧
    ∀ body, otherwise = some body ↔
      found = some body ∨ ∃ arm ∈ arms, arm.value = none ∧ arm.body = body := by
  induction arms generalizing found keyed with
  | nil =>
    obtain ⟨rfl, rfl⟩ := Prod.mk.inj (Except.ok.inj h)
    simp
  | cons arm rest ih =>
    obtain ⟨_ | value, armBody⟩ := arm
    · rw [splitArms] at h
      split_ifs at h with hfound
      obtain ⟨hkeyed, hotherwise⟩ := ih h
      rw [Option.not_isSome_iff_eq_none] at hfound
      subst hfound
      refine ⟨?_, ?_⟩
      · intro key body
        rw [hkeyed, List.exists_mem_cons_iff]
        simp [HasKey]
      · intro body
        rw [hotherwise, List.exists_mem_cons_iff]
        simp
    · rw [splitArms] at h
      obtain ⟨armKey, hkey, h⟩ := bind_eq_ok.mp h
      obtain ⟨⟨inner, found'⟩, hsplit, h⟩ := bind_eq_ok.mp h
      obtain ⟨rfl, rfl⟩ := Prod.mk.inj (Except.ok.inj h)
      obtain ⟨hkeyed, hotherwise⟩ := ih hsplit
      refine ⟨?_, ?_⟩
      · intro key body
        rw [List.map_cons, List.mem_cons, hkeyed, List.exists_mem_cons_iff]
        simp [HasKey, hkey, eq_comm]
      · intro body
        rw [hotherwise, List.exists_mem_cons_iff]
        simp

/-- The arms that are dispatched on are those with a key, and the default is
the arm without one. -/
theorem mem_of_collectArms {switch : Tree} {arms : List Arm} {keyed : List (Int32 × Tree)}
    {otherwise : Option Tree} (h : collectArms switch arms = .ok (keyed, otherwise)) :
    (∀ key body, (key, body) ∈ keyed ↔ ∃ arm ∈ arms, HasKey key arm ∧ arm.body = body) ∧
    ∀ body, otherwise = some body ↔ ∃ arm ∈ arms, arm.value = none ∧ arm.body = body := by
  obtain ⟨⟨split, found⟩, hsplit, h⟩ := bind_eq_ok.mp h
  dsimp only at h
  split at h
  · cases h
  · obtain ⟨rfl, rfl⟩ := Prod.mk.inj (Except.ok.inj h)
    obtain ⟨hkeyed, hotherwise⟩ := mem_of_splitArms hsplit
    refine ⟨?_, ?_⟩
    · intro key body
      rw [← hkeyed, sortBy_eq_insertionSort]
      exact ((List.perm_insertionSort _ split).map _).mem_iff
    · intro body
      rw [hotherwise]
      simp

/-- The stages of lowering a switch over ints. -/
structure Stages (env : Env) (recur : Recur) (label : Option String) (subject : Tree)
    (arms : List Arm) (s s' : State) where
  keyed : List (Int32 × Tree)
  defaultBody : Option Tree
  collected : collectArms (.switch label .int subject arms) arms = .ok (keyed, defaultBody)
  encoding : Encoding
  cheaper : encoding = .choose (keyed.map Prod.fst)
  fits : Lowering.dispatchedArms encoding env.options.maxTableEntries keyed =
    .ok (encoding.arrange keyed)
  key : Tree
  /-- The key is pushed. From here on, the cases get their labels. -/
  ready : State
  pushed : Runs (recur.value key) env (((s.newLabels 4).emits (.bind (s.label 0))).pushFlow
    ⟨.switch, label, s.label 0, s.label 1, s.label 2, s.label 3⟩) () ready
  starts : List (Int32 × Nat)
  /-- All cases are lowered. -/
  last : State
  layout : Layout env recur (ready.cases keyed) starts
    ((ready.dispatched encoding (s.label 2) keyed).emits (.bind (s.label 1))) last
  /-- The default is lowered, too. -/
  done : State
  defaulted : Runs (defaultBody.toList.forM recur.inScope) env (last.emits (.bind (s.label 2))) ()
    done
  left : s' = done.popFlow.emits (.bind (s.label 3))

/-- Every switch over ints that is lowered passes through these stages. -/
theorem nonempty_stages {label : Option String} {subject : Tree} {arms : List Arm}
    (hrecur : Derives env recur)
    (h : Runs (Lowering.intSwitch recur label subject arms) env s () s') :
    Nonempty (Stages env recur label subject arms s s') := by
  simp only [Lowering.intSwitch, runs_bind, runs_orFail, runs_options] at h
  obtain ⟨key, _, hkey, ⟨keyed, defaultBody⟩, _, ⟨hkeyed, rfl⟩, _, _, ⟨rfl, rfl⟩, dispatched, _,
    ⟨hdispatched, rfl⟩, h⟩ := h
  simp only [runs_newLabel, runs_mark, runs_modify] at h
  obtain ⟨_, _, ⟨rfl, rfl⟩, _, _, ⟨rfl, rfl⟩, _, _, ⟨rfl, rfl⟩, _, _, ⟨rfl, rfl⟩, h⟩ := h
  simp only [State.label_emits_newLabel, Nat.zero_add] at h
  obtain ⟨_, _, rfl, _, _, rfl, _, ready, hvalue, targets, m, htargets, _, _, hdispatch, _, _, rfl,
    _, last, harms, _, _, rfl, h⟩ := h
  obtain ⟨_, rfl⟩ := Derives.intSubject hkey
  obtain rfl := eq_arrange_of_dispatchedArms hdispatched
  rw [Derives.emitDispatch hdispatch] at harms
  obtain ⟨done, hdefault, hleft⟩ : ∃ done, Runs (defaultBody.toList.forM recur.inScope) env
      (last.emits (.bind (s.label 2))) () done ∧
      s' = done.popFlow.emits (.bind (s.label 3)) := by
    cases defaultBody with
    | none =>
      simp only [runs_bind, runs_modify, runs_mark] at h
      obtain ⟨_, _, rfl, rfl⟩ := h
      exact ⟨_, runs_pure.mpr ⟨rfl, rfl⟩, rfl⟩
    | some body =>
      simp only [runs_bind, runs_modify, runs_mark] at h
      obtain ⟨_, done, hbody, _, _, rfl, rfl⟩ := h
      exact ⟨done, runs_bind.mpr ⟨_, _, hbody, runs_pure.mpr ⟨rfl, rfl⟩⟩, rfl⟩
  have hknown : (s.label 2).id < ready.labelCount := by
    have hnew : (s.newLabels 4).Pending (s.label 2) := State.pending_newLabels s (by decide)
    have hentry := hnew.bind (show s.label 2 ≠ s.label 0 by simp [State.label])
    exact (((State.BindsOnly.refl [] _).pushFlow _).trans
      (hrecur.value hvalue).bindsOnly).pending hentry List.not_mem_nil |>.known
  have htargets := Derives.armTargets htargets
  obtain ⟨starts, hlayout⟩ : ∃ starts, Layout env recur
      (ready.cases ((Encoding.choose (keyed.map Prod.fst)).arrange keyed)) starts
      ((m.emits (dispatchCall (.choose (keyed.map Prod.fst)) (s.label 2) targets)).emits
        (.bind (s.label 1))) last := by
    apply layout_of_runs hknown
    rw [htargets]
    exact harms
  rw [State.cases_arrange] at hlayout
  refine ⟨⟨keyed, defaultBody, hkeyed, _, rfl, hdispatched, key, ready, hvalue, starts, last, ?_,
    done, hdefault, hleft⟩⟩
  rw [State.dispatched, htargets]
  exact hlayout

namespace Stages

variable {label : Option String} {subject : Tree} {arms : List Arm}
  (stages : Stages env recur label subject arms s s')

/-- The state before the dispatch. -/
def labelled : State :=
  (stages.ready.armTargets (s.label 2) (stages.encoding.arrange stages.keyed)).2

/-- The call that writes the dispatch. -/
def call : Call :=
  dispatchCall stages.encoding (s.label 2)
    (stages.ready.armTargets (s.label 2) (stages.encoding.arrange stages.keyed)).1

/-- The state behind the dispatch. -/
def first : State := (stages.labelled.emits stages.call).emits (.bind (s.label 1))

def cases : List Case := stages.ready.cases stages.keyed

/-- The dispatch on the cases in either encoding, with the labels they have. -/
def operand (encoding : Encoding) : OperandOf Label :=
  stages.ready.dispatchOperand encoding (s.label 2) stages.keyed

theorem ascending : Ascending stages.keyed := ascending_of_collectArms stages.collected

theorem proper : stages.call.Proper := by
  have hfits := stages.fits
  rw [stages.cheaper] at hfits
  rw [call, stages.cheaper]
  exact dispatchCall_proper stages.collected hfits (State.map_fst_arrange _ _ _ _) _

theorem mem_cases (key : Int32) (body : Tree) :
    (∃ case ∈ stages.cases, case.key = key ∧ case.body = body) ↔
      (∃ arm ∈ arms, HasKey key arm ∧ arm.body = body) ∧ body.isPureRedirect = false := by
  rw [← (mem_of_collectArms stages.collected).1]
  have hmem : (key, body) ∈ stages.keyed.filter (!·.2.isPureRedirect) ↔
      (key, body) ∈ stages.keyed ∧ body.isPureRedirect = false := by
    simp [List.mem_filter]
  rw [← hmem, ← State.bodies_cases stages.keyed stages.ready, List.mem_map]
  simp [cases]

theorem keys_ascend :
    (stages.cases.map Case.key).IsChain fun key next => key.toInt < next.toInt := by
  have hbodies := State.bodies_cases stages.keyed stages.ready
  have hkeys : stages.cases.map Case.key =
      (stages.keyed.filter (!·.2.isPureRedirect)).map Prod.fst := by
    rw [← hbodies, List.map_map]
    rfl
  rw [hkeys, List.isChain_map, List.isChain_iff_pairwise]
  apply List.Pairwise.filter
  rw [← List.isChain_iff_pairwise]
  exact stages.ascending

theorem keys_nodup : (stages.cases.map Case.key).Nodup := by
  have hpairs := List.isChain_iff_pairwise.mp stages.keys_ascend
  apply hpairs.imp
  rintro key _ hlt rfl
  exact Int.lt_irrefl _ hlt

include stages in
theorem pending_ready (hrecur : Derives env recur) (hpositive : 0 < index) (hindex : index < 4) :
    stages.ready.Pending (s.label index) := by
  have hnew : (s.newLabels 4).Pending (s.label index) := State.pending_newLabels s hindex
  have hne : s.label index ≠ s.label 0 := by
    intro heq
    have hid := congrArg Label.id heq
    simp only [State.label] at hid
    omega
  exact (((State.BindsOnly.refl [] _).pushFlow _).trans
    (hrecur.value stages.pushed).bindsOnly).pending (hnew.bind hne) List.not_mem_nil

section Leads

variable (hrecur : Derives env recur)

include hrecur

theorem leads_ready : s.Leads stages.ready := by
  have hnew : (s.newLabels 4).Pending (s.label 0) := State.pending_newLabels s (by decide)
  have hentry := (State.Leads.newLabels 4 s).trans (.bind hnew)
  have hflow : ((s.newLabels 4).emits (.bind (s.label 0))).Leads
      (((s.newLabels 4).emits (.bind (s.label 0))).pushFlow
        ⟨.switch, label, s.label 0, s.label 1, s.label 2, s.label 3⟩) := .context rfl
  exact (hentry.trans hflow).trans ((hrecur.value stages.pushed).leads rfl)

theorem pending_labelled (hpositive : 0 < index) (hlt : index < 4) :
    stages.labelled.Pending (s.label index) := by
  exact (stages.pending_ready hrecur hpositive hlt).armTargets _

theorem pending_first (hindex : 1 < index) (hlt : index < 4) :
    stages.first.Pending (s.label index) := by
  have hlabelled := stages.pending_labelled hrecur (by omega) hlt
  apply (hlabelled.emits (unmarked_dispatchCall _ _ _).1).bind
  intro heq
  have hid := congrArg Label.id heq
  simp only [State.label] at hid
  omega

theorem pending_cases : ∀ case ∈ stages.cases, stages.first.Pending case.label := by
  intro case hcase
  have hmem : case ∈ stages.ready.cases (stages.encoding.arrange stages.keyed) := by
    rw [State.cases_arrange]
    exact hcase
  have hlabelled : stages.labelled.Pending case.label := State.pending_cases hmem
  apply (hlabelled.emits (unmarked_dispatchCall _ _ _).1).bind
  intro heq
  have hold := (stages.pending_ready hrecur (show 0 < 1 by decide) (by decide)).known
  have hnew := State.le_of_mem_cases hcase
  rw [heq] at hnew
  omega

omit hrecur in
theorem leads_dispatch : stages.labelled.Leads (stages.labelled.emits stages.call) :=
  .emits (dispatchCall_plain stages.proper) (unmarked_dispatchCall _ _ _).1

theorem leads_first : (stages.labelled.emits stages.call).Leads stages.first := by
  have hlabelled := stages.pending_labelled hrecur (show 0 < 1 by decide) (by decide)
  exact .bind (hlabelled.emits (unmarked_dispatchCall _ _ _).1)

theorem leads_last : stages.first.Leads stages.last :=
  stages.layout.leads hrecur (stages.pending_cases hrecur) (State.labels_cases_nodup _ _)

theorem pending_last (hindex : 1 < index) (hlt : index < 4) :
    stages.last.Pending (s.label index) := by
  apply stages.layout.pending hrecur (stages.pending_first hrecur hindex hlt)
  intro hmem
  obtain ⟨case, hcase, hlabel⟩ := List.mem_map.mp hmem
  have hold := (stages.pending_ready hrecur (by omega) hlt).known
  have hnew := State.le_of_mem_cases hcase
  rw [hlabel] at hnew
  omega

theorem lowers_default : Lowers env (.seq (stages.defaultBody.toList.map .inScope))
    (stages.last.emits (.bind (s.label 2))) stages.done :=
  Derives.seq (fun hbody => hrecur.inScope hbody) stages.defaulted

theorem leads_left : stages.done.Leads s' := by
  have hbinds := (stages.lowers_default hrecur).bindsOnly
  rw [Job.binds, Job.bindsAll_map fun _ => rfl] at hbinds
  have hlast : (stages.last.emits (.bind (s.label 2))).Pending (s.label 3) := by
    apply (stages.pending_last hrecur (by decide) (by decide)).bind
    simp [State.label]
  have hdone := hbinds.pending hlast List.not_mem_nil
  have hpopped := (State.BindsOnly.refl [] stages.done).popFlow.pending hdone List.not_mem_nil
  have hpop : stages.done.Leads stages.done.popFlow := .context rfl
  have hleft := hpop.trans (.bind hpopped)
  rwa [← stages.left] at hleft

theorem leads_exit : (stages.last.emits (.bind (s.label 2))).Leads s' := by
  have hdefault := (stages.lowers_default hrecur).leads (Job.bindsAll_map (fun _ => rfl) _)
  exact hdefault.trans (stages.leads_left hrecur)

theorem leads_behind : stages.last.Leads s' := by
  have hdefault : stages.last.Leads (stages.last.emits (.bind (s.label 2))) :=
    .bind (stages.pending_last hrecur (by decide) (by decide))
  exact hdefault.trans (stages.leads_exit hrecur)

theorem leads_default : stages.first.Leads s' :=
  (stages.leads_last hrecur).trans (stages.leads_behind hrecur)

end Leads

/-- An arm that does more than redirect has a start. -/
theorem arm_startsAt (hrecur : Derives env recur) {arm : Arm} (harm : arm ∈ arms)
    (hkey : HasKey key arm) (hbody : arm.body.isPureRedirect = false) :
    ∃ start, stages.starts.lookup key = some start ∧
      StartsAt env recur arm.body stages.first s' start := by
  obtain ⟨case, hcase, rfl, hcaseBody⟩ :=
    (stages.mem_cases key arm.body).mpr ⟨⟨arm, harm, hkey, rfl⟩, hbody⟩
  obtain ⟨start, hlookup, other, m, m', hbefore, hruns, hafter, hoffset⟩ :=
    stages.layout.startsAt hrecur (stages.pending_cases hrecur) (State.labels_cases_nodup _ _)
      stages.keys_nodup case hcase
  rw [hcaseBody] at hruns
  exact ⟨start, hlookup, other, m, m', hbefore, hruns,
    hafter.trans (stages.leads_behind hrecur), hoffset⟩

theorem lookup_eq_none (h : ∀ arm ∈ arms, HasKey key arm → arm.body.isPureRedirect = true) :
    stages.starts.lookup key = none := by
  apply lookup_eq_none_of_notMem
  rw [stages.layout.keys_eq]
  intro hmem
  obtain ⟨case, hcase, hkey⟩ := List.mem_map.mp hmem
  obtain ⟨⟨arm, harm, harmKey, hbody⟩, hredirect⟩ :=
    (stages.mem_cases key case.body).mp ⟨case, hcase, hkey, rfl⟩
  rw [← hbody, h arm harm harmKey] at hredirect
  cases hredirect

theorem default_startsAt (hrecur : Derives env recur) :
    ∀ arm ∈ arms, arm.value = none →
      StartsAt env recur arm.body stages.first s' stages.last.offset := by
  intro arm harm hvalue
  have hsome := ((mem_of_collectArms stages.collected).2 arm.body).mpr ⟨arm, harm, hvalue, rfl⟩
  have hruns := stages.defaulted
  rw [hsome] at hruns
  obtain ⟨_, m, hbody, hnil⟩ := runs_bind.mp hruns
  obtain ⟨_, rfl⟩ := runs_pure.mp hnil
  exact ⟨s.label 2, stages.last, stages.done, stages.leads_last hrecur, hbody,
    stages.leads_left hrecur, rfl⟩

theorem offset_done : stages.done.offset = s'.offset := by
  have hleft := congrArg State.offset stages.left
  rw [State.offset_emits rfl] at hleft
  exact hleft.symm

theorem offset_of_no_default (h : ∀ arm ∈ arms, arm.value ≠ none) :
    stages.last.offset = s'.offset := by
  have hnone : stages.defaultBody = none := by
    apply Option.eq_none_iff_forall_ne_some.mpr
    intro body hsome
    obtain ⟨arm, harm, hvalue, _⟩ := ((mem_of_collectArms stages.collected).2 body).mp hsome
    exact h arm harm hvalue
  have hruns := stages.defaulted
  rw [hnone] at hruns
  obtain ⟨_, hdone⟩ := runs_pure.mp hruns
  rw [← stages.offset_done, ← hdone, State.offset_emits rfl]

section Image

variable {image : Image} (hrecur : Derives env recur) (hs : image.Passes s)
  (hs' : image.Passes s')

include hrecur hs hs'

theorem passes_dispatch :
    image.Passes stages.labelled ∧ image.Passes (stages.labelled.emits stages.call) := by
  have hfirst := (stages.leads_first hrecur).trans (stages.leads_default hrecur)
  have hready : s.Leads stages.labelled := (stages.leads_ready hrecur).trans (.armTargets rfl)
  have hlabelled := hs.between hs' hready (stages.leads_dispatch.trans hfirst)
  exact ⟨hlabelled, hlabelled.between hs' stages.leads_dispatch hfirst⟩

/-- The cases start at their labels, and the default where they end. -/
theorem starts_eq :
    stages.starts = stages.cases.map (fun case => (case.key, image.position case.label)) ∧
      stages.last.offset = image.position (s.label 2) := by
  have hpending := stages.pending_last hrecur (show 1 < 2 by decide) (by decide)
  have hlast := (State.Leads.bind hpending).trans (stages.leads_exit hrecur)
  have hfirst := (stages.passes_dispatch hrecur hs hs').2.between hs' (stages.leads_first hrecur)
    (stages.leads_default hrecur)
  have hbodies := hfirst.between hs' (stages.leads_last hrecur) hlast
  have hdefault := hbodies.between hs' (.bind hpending) (stages.leads_exit hrecur)
  refine ⟨?_, (hdefault.position_bind hpending.known).symm⟩
  exact stages.layout.starts_eq hrecur (stages.pending_cases hrecur)
    (State.labels_cases_nodup _ _) hfirst hbodies

/-- Either encoding selects the start of the case with the key, or else the
start of the default. -/
theorem select?_eq (encoding : Encoding) (key : Int32) :
    ((stages.operand encoding).map image.position).select? key =
      some ((stages.starts.lookup key).getD stages.last.offset) := by
  have hknown := (stages.pending_ready hrecur (show 0 < 2 by decide) (by decide)).known
  obtain ⟨hstarts, hlast⟩ := stages.starts_eq hrecur hs hs'
  have hlookup := OperandOf.lookup_mapTargets image.position
    (stages.cases.map fun case => (case.key, case.label)) key
  rw [List.map_map] at hlookup
  rw [OperandOf.select?_map, operand,
    State.select?_dispatchOperand encoding stages.ascending hknown, hstarts, hlast,
    Option.map_some, ← Option.getD_map image.position, ← cases, ← hlookup]
  rfl

end Image

end Stages

/-- Wherever a switch over ints stands in a routine, its dispatch is read back
from the finished code. For every key it goes to the start of the body under that
key, if there is one that does more than redirect, and otherwise to the default.
Either encoding of the same cases goes to the same place. -/
theorem intSwitch_selects {decl : RoutineDecl} {env : Env} {shared : Shared} {depth : Nat}
    {label : Option String} {subject : Tree} {arms : List Arm} {s s' t : State}
    {output : RoutineOutput}
    (hstart : (State.initial env.nest shared decl.info).Leads s)
    (hswitch : Runs (Lowering.intSwitch (Handlers.standard.run depth) label subject arms) env s ()
      s')
    (hrest : s'.Leads t) (hfinish : t.finish = .ok output) :
    ∃ (stages : Stages env (Handlers.standard.run depth) label subject arms s s')
      (dispatch : Instruction),
      dispatch ∈ output.code.chunk.instructions ∧
      output.code.chunk.decode? dispatch.offset = some (dispatch, stages.first.offset) ∧
      dispatch.operand = (stages.operand stages.encoding).map t.assembler.positionOf ∧
      dispatch.operand.KeysAscend ∧
      (∀ encoding key, ((stages.operand encoding).map t.assembler.positionOf).select? key =
        dispatch.operand.select? key) ∧
      (∀ arm ∈ arms, ∀ key, HasKey key arm → arm.body.isPureRedirect = false →
        ∃ start, dispatch.operand.select? key = some start ∧
          StartsAt env (Handlers.standard.run depth) arm.body stages.first s' start) ∧
      (∀ key, (∀ arm ∈ arms, HasKey key arm → arm.body.isPureRedirect = true) →
        dispatch.operand.select? key = some stages.last.offset) ∧
      (∀ arm ∈ arms, arm.value = none →
        StartsAt env (Handlers.standard.run depth) arm.body stages.first s' stages.last.offset) ∧
      ((∀ arm ∈ arms, arm.value ≠ none) → stages.last.offset = s'.offset) := by
  have hrecur : Derives env (Handlers.standard.run depth) := Derives.run env depth
  obtain ⟨stages⟩ := nonempty_stages hrecur hswitch
  have hpart : s.Leads s' := (hrecur.intSwitch hswitch).leads rfl
  obtain ⟨hinitial, ht⟩ := (hstart.trans (hpart.trans hrest)).passes hfinish
  have hs := hinitial.between ht hstart (hpart.trans hrest)
  have hs' := hs.between ht hpart hrest
  obtain ⟨hlabelled, hdispatched⟩ := stages.passes_dispatch hrecur hs hs'
  obtain ⟨op, hinstr⟩ := instruction?_dispatchCall stages.encoding (s.label 2)
    (stages.ready.armTargets (s.label 2) (stages.encoding.arrange stages.keyed)).1
    stages.labelled.assembler.pool
  have hleads := ((stages.leads_first hrecur).trans (stages.leads_default hrecur)).trans hrest
  have hread := hlabelled.read hdispatched stages.proper hinstr
  have hmem := hlabelled.mem_instructions hdispatched stages.proper hinstr hleads
    (State.finish_eq_ok hfinish).1
  have hselect : ∀ encoding key, ((stages.operand encoding).map t.assembler.positionOf).select?
      key = some ((stages.starts.lookup key).getD stages.last.offset) :=
    stages.select?_eq hrecur hs hs'
  refine ⟨stages, ⟨stages.labelled.offset, op, _⟩, hmem, ?_, rfl, ?_, ?_, ?_, ?_,
    stages.default_startsAt hrecur, stages.offset_of_no_default⟩
  · rw [Stages.first, State.offset_emits rfl]
    exact hread
  · exact OperandOf.keysAscend_map _ (State.keysAscend_dispatchOperand _ stages.ascending)
  · intro encoding key
    exact (hselect encoding key).trans (hselect stages.encoding key).symm
  · intro arm harm key hkey hbody
    obtain ⟨start, hlookup, hstarts⟩ := stages.arm_startsAt hrecur harm hkey hbody
    refine ⟨start, (hselect stages.encoding key).trans ?_, hstarts⟩
    rw [hlookup]
    rfl
  · intro key hredirects
    refine (hselect stages.encoding key).trans ?_
    rw [stages.lookup_eq_none hredirects]
    rfl

/-- Arms at both ends of the range of keys, out of order. One of them only redirects. -/
def extremes : List Arm :=
  [.new (.int 2147483647) (.ret none), .new (.int 7) .redirect, ⟨none, .nothing⟩,
    .new (.int (-2147483648)) (.ret none)]

def pickExtreme : RoutineDecl where
  owner := .object "demo.Main"
  name := "pick"
  params := []
  result := .void
  isStatic := true
  body := .switch none .int (.int 5) extremes

/-- The extreme keys lead to their bodies, and a redirection goes where other keys go. -/
theorem intSwitch_selects_extremes :
    ∃ s' output, Runs (Lowering.intSwitch (Handlers.standard.run 3) none (.int 5) extremes)
        ⟨.empty, {}⟩ (.initial .empty .empty pickExtreme.info) () s' ∧
      s'.finish = .ok output ∧ ∃ dispatch ∈ output.code.chunk.instructions,
        dispatch.operand.KeysAscend ∧ (dispatch.operand.select? 2147483647).isSome ∧
        (dispatch.operand.select? (-2147483648)).isSome ∧
        dispatch.operand.select? 7 = dispatch.operand.select? 0 := by
  generalize hresult : Lowering.intSwitch (Handlers.standard.run 3) none (.int 5) extremes
    ⟨.empty, {}⟩ (.initial .empty .empty pickExtreme.info) = result
  obtain ⟨outcome, s'⟩ := result
  have hfinishes : _ = s'.finish.isOk := congrArg (fun result => result.2.finish.isOk) hresult
  cases outcome with
  | error fault =>
    have hfails : _ = false := congrArg (fun result => result.1.isOk) hresult
    exact absurd hfails (by decide +kernel)
  | ok value =>
    cases hfinish : s'.finish with
    | error fault =>
      have hfails : _ = false := hfinishes.trans (congrArg Except.isOk hfinish)
      exact absurd hfails (by decide +kernel)
    | ok output =>
      obtain ⟨stages, dispatch, hmem, _, _, hascend, _, hbodies, hdefault, _⟩ :=
        intSwitch_selects (.refl _) hresult (.refl _) hfinish
      have hkey (key : Int32) (h : ⟨some (.int key), .ret none⟩ ∈ extremes) :
          (dispatch.operand.select? key).isSome := by
        obtain ⟨start, hstart, _⟩ := hbodies _ h key ⟨_, rfl, rfl⟩ rfl
        rw [hstart]
        rfl
      have hother (key : Int32) (hhigh : 2147483647 ≠ key) (hlow : -2147483648 ≠ key) :
          ∀ arm ∈ extremes, HasKey key arm → arm.body.isPureRedirect = true := by
        rintro arm harm ⟨value, hvalue, hkey⟩
        simp only [extremes, List.mem_cons, List.not_mem_nil, or_false] at harm
        rcases harm with rfl | rfl | rfl | rfl
        · obtain rfl := Option.some.inj hvalue
          exact absurd (Except.ok.inj hkey) hhigh
        · rfl
        · cases hvalue
        · obtain rfl := Option.some.inj hvalue
          exact absurd (Except.ok.inj hkey) hlow
      have hseven := hdefault 7 (hother 7 (by decide) (by decide))
      have hzero := hdefault 0 (hother 0 (by decide) (by decide))
      exact ⟨s', output, hresult, hfinish, dispatch, hmem, hascend,
        hkey _ (by simp [extremes, Arm.new]), hkey _ (by simp [extremes, Arm.new]),
        hseven.trans hzero.symm⟩

end Switch

end StackLowering
