import StackLowering.Proofs.ExceptionTable
/-!
The regions that lowering records. A region is recorded when its handler is
reached, after the code it protects and with it all regions inside. So the table of
a routine is nested, inner ranges first, and the handlers of one region follow in
the order of its clauses with the one of the cleanup at the end.
-/

namespace StackLowering

theorem Assembler.offset_lt_place (asm : Assembler) (op : Opcode) (operand : OperandOf Label) :
    asm.offset < (asm.place op operand).offset := by
  rw [offset, offset, Chunk.size, Chunk.size, ← Array.length_toList, ← Array.length_toList, place,
    chunk_foldl_writePiece]
  simp [Piece.render]

theorem Call.offset_le_run (call : Call) (asm : Assembler) :
    asm.offset ≤ (call.run asm).offset := by
  cases hinstr : call.instruction? asm.pool with
  | none =>
    obtain ⟨hchunk, _⟩ := run_of_instruction?_none hinstr
    rw [Assembler.offset, Assembler.offset, hchunk]
  | some emission =>
    obtain ⟨op, operand, overflow, hrun, _⟩ := places hinstr
    rw [hrun]
    exact (Assembler.offset_lt_place { asm with
      pool := asm.pool.addAll call.constants, overflow := overflow } op operand).le

variable {t : State} {count : Nat} {label : Label}

namespace State

variable {s m s' : State} {labels inner : List Label} {position : Label → Nat}

theorem offset_lt_jump (s : State) (label : Label) :
    s.offset < (s.emits (.jump .jump label)).offset :=
  s.assembler.offset_lt_place .jump (.jump label)

/-- The next labels that are handed out. -/
def ownLabels (count : Nat) (s : State) : List Label := (List.range count).map s.label

theorem mem_ownLabels {index : Nat} (h : index < count) : s.label index ∈ s.ownLabels count :=
  List.mem_map_of_mem (List.mem_range.mpr h)

theorem le_of_mem_ownLabels (h : label ∈ s.ownLabels count) :
    s.labelCount ≤ label.id := by
  obtain ⟨index, _, rfl⟩ := List.mem_map.mp h
  exact s.le_label index

theorem known_ownLabels :
    ∀ label ∈ s.ownLabels count, label.id < (s.newLabels count).labelCount :=
  List.forall_mem_map.mpr fun _ hindex => (pending_newLabels s (List.mem_range.mp hindex)).known

/-- The labels handed out on the way, as far as they are bound, lie at these positions. -/
def Locates (position : Label → Nat) (s s' : State) : Prop :=
  ∀ label : Label, s.labelCount ≤ label.id → ∀ offset,
    s'.assembler.position? label = some offset → position label = offset

theorem Locates.part {m' : State} (h : Locates position s s')
    (hbefore : s.labelCount ≤ m.labelCount) (hafter : BindsOnly inner m' s')
    (hinner : ∀ label ∈ inner, label.id < m.labelCount) : Locates position m m' := by
  intro label hnew offset hoffset
  have hknown : label.id < m'.labelCount := by
    have hentry := Option.join_eq_some_iff.mp hoffset
    exact (Array.getElem?_eq_some_iff.mp hentry).1
  have hnot : label ∉ inner := fun hmem => (hinner label hmem).not_ge hnew
  refine h label (hbefore.trans hnew) offset ?_
  rw [hafter.kept label hknown hnot, hoffset]

/-- The regions recorded on the way have such entries. -/
def Records (s s' : State) (entries : (Label → Nat) → List ExceptionEntry → Prop) : Prop :=
  ∃ added, s'.assembler.regions.toList = s.assembler.regions.toList ++ added ∧
    ∀ position, Locates position s s' → entries position (added.map (Region.entry position))

/-- Nothing happens that the table of exceptions depends on, except that code is added
and labels are handed out or bound. -/
structure Quiet (labels : List Label) (s s' : State) : Prop where
  binds : BindsOnly labels s s'
  offset : s.offset ≤ s'.offset
  regions : s'.assembler.regions.toList = s.assembler.regions.toList
  routines : s'.localRoutines = s.localRoutines

/-- Code is added, of the labels from before only these are bound, and the tables of
the routines declared on the way are nested. -/
structure Advances (labels : List Label) (s s' : State) : Prop where
  known : ∀ label ∈ labels, label.id < s.labelCount
  binds : BindsOnly labels s s'
  offset : s.offset ≤ s'.offset
  routines : ∀ routine ∈ s'.localRoutines, routine ∈ s.localRoutines ∨ routine.code.Nested

/-- The entries of what is recorded on the way are nested and lie in the code added. -/
structure Protects (labels : List Label) (s s' : State) : Prop extends Advances labels s s' where
  records : s.Records s' fun _ entries => ExceptionEntry.Layered s.offset s'.offset entries

namespace Quiet

theorem refl (labels : List Label) (s : State) : Quiet labels s s := ⟨.refl _ _, le_rfl, rfl, rfl⟩

theorem trans (h : Quiet labels s m) (h' : Quiet [] m s') : Quiet labels s s' where
  binds := h.binds.trans h'.binds
  offset := h.offset.trans h'.offset
  regions := h'.regions.trans h.regions
  routines := h'.routines.trans h.routines

theorem context (h : Quiet labels s m) (hassembler : s'.assembler = m.assembler)
    (hroutines : s'.localRoutines = m.localRoutines) : Quiet labels s s' where
  binds := h.binds.context rfl hassembler
  offset := by
    rw [State.offset, State.offset, hassembler]
    exact h.offset
  regions := by rw [hassembler, h.regions]
  routines := hroutines.trans h.routines

theorem call (s : State) (call : Call) (hregions : call.regions = []) :
    Quiet call.bound?.toList s (s.emits call) where
  binds := .call s call
  offset := call.offset_le_run s.assembler
  regions := by
    have hrun := call.regions_run s.assembler
    rwa [hregions, List.append_nil] at hrun
  routines := rfl

theorem newLabels (h : Quiet labels s m) (count : Nat) : Quiet labels s (m.newLabels count) := by
  induction count with
  | zero => exact h
  | succ count ih => exact ih.trans (call _ .newLabel rfl)

theorem bind (h : Quiet labels s m) (hlabel : s.labelCount ≤ label.id) :
    Quiet labels s (m.emits (.bind label)) where
  binds := h.binds.bind (.inr hlabel)
  offset := h.offset.trans (Call.offset_le_run (.bind label) m.assembler)
  regions := h.regions
  routines := h.routines

end Quiet

namespace Records

variable {first second : (Label → Nat) → List ExceptionEntry → Prop}

theorem mono (h : s.Records s' first)
    (himp : ∀ position entries, Locates position s s' → first position entries →
      second position entries) : s.Records s' second := by
  obtain ⟨added, hregions, hentries⟩ := h
  exact ⟨added, hregions, fun position hlocates => himp _ _ hlocates (hentries _ hlocates)⟩

theorem behind (h : m.Records s' first) (hquiet : Quiet labels s m) : s.Records s' first := by
  obtain ⟨added, hregions, hentries⟩ := h
  rw [hquiet.regions] at hregions
  refine ⟨added, hregions, fun position hlocates => hentries position ?_⟩
  exact hlocates.part hquiet.binds.count (.refl [] s') (List.forall_mem_nil _)

theorem andQuiet (h : s.Records m first) (hquiet : Quiet inner m s')
    (hinner : ∀ label ∈ inner, label.id < s.labelCount) : s.Records s' first := by
  obtain ⟨added, hregions, hentries⟩ := h
  refine ⟨added, hquiet.regions.trans hregions, fun position hlocates => hentries position ?_⟩
  exact hlocates.part le_rfl hquiet.binds hinner

end Records

namespace Advances

theorem andThen (h : Advances labels s m) (h' : Advances inner m s') (hinner : inner ⊆ labels) :
    Advances labels s s' where
  known := h.known
  binds := h.binds.andThen h'.binds fun _ hmem => .inl (hinner hmem)
  offset := h.offset.trans h'.offset
  routines := fun routine hmem => (h'.routines routine hmem).elim (h.routines routine) .inr

theorem trans (h : Advances labels s m) (h' : Advances [] m s') : Advances labels s s' :=
  h.andThen h' (List.nil_subset _)

theorem behind (h : Advances inner m s') (hquiet : Quiet [] s m)
    (hknown : ∀ label ∈ labels, label.id < s.labelCount)
    (hinner : ∀ label ∈ inner, label ∈ labels ∨ s.labelCount ≤ label.id) :
    Advances labels s s' where
  known := hknown
  binds := by
    have hstart := (BindsOnly.refl labels s).trans hquiet.binds
    exact hstart.andThen h.binds hinner
  offset := hquiet.offset.trans h.offset
  routines := by
    rw [← hquiet.routines]
    exact h.routines

/-- What is recorded in two parts is recorded one after the other. -/
theorem records {first second : (Label → Nat) → List ExceptionEntry → Prop}
    (h : Advances labels s m) (h' : Advances inner m s') (hinner : inner ⊆ labels)
    (hfirst : s.Records m first) (hsecond : m.Records s' second) :
    s.Records s' fun position entries => ∃ before after,
      entries = before ++ after ∧ first position before ∧ second position after := by
  obtain ⟨before, hregions, hfirst⟩ := hfirst
  obtain ⟨after, hregions', hsecond⟩ := hsecond
  refine ⟨before ++ after, by rw [hregions', hregions, List.append_assoc],
    fun position hlocates => ⟨_, _, List.map_append, hfirst position ?_, hsecond position ?_⟩⟩
  · exact hlocates.part le_rfl h'.binds fun label hmem => h.known label (hinner hmem)
  · exact hlocates.part h.binds.count (.refl [] s') (List.forall_mem_nil _)

end Advances

namespace Protects

theorem of_quiet (hknown : ∀ label ∈ labels, label.id < s.labelCount) (h : Quiet labels s s') :
    Protects labels s s' where
  known := hknown
  binds := h.binds
  offset := h.offset
  routines := by
    rw [h.routines]
    exact fun _ => .inl
  records := ⟨[], by rw [h.regions, List.append_nil], fun _ _ => .nil _ _⟩

theorem refl (hknown : ∀ label ∈ labels, label.id < s.labelCount) : Protects labels s s :=
  .of_quiet hknown (.refl _ _)

theorem nil (s : State) : Protects [] s s := refl (List.forall_mem_nil _)

theorem andThen (h : Protects labels s m) (h' : Protects inner m s') (hinner : inner ⊆ labels) :
    Protects labels s s' where
  toAdvances := h.toAdvances.andThen h'.toAdvances hinner
  records := by
    refine (h.toAdvances.records h'.toAdvances hinner h.records h'.records).mono ?_
    rintro _ _ _ ⟨before, after, rfl, hbefore, hafter⟩
    exact hbefore.append hafter h.offset h'.offset

theorem trans (h : Protects labels s m) (h' : Protects [] m s') : Protects labels s s' :=
  h.andThen h' (List.nil_subset _)

theorem andJob (h : Protects labels s m)
    (h' : (∀ label ∈ inner, label.id < m.labelCount) → Protects inner m s')
    (hinner : inner ⊆ labels) : Protects labels s s' :=
  h.andThen (h' fun label hmem => (h.known label (hinner hmem)).trans_le h.binds.count) hinner

theorem behind (h : Protects inner m s') (hquiet : Quiet [] s m)
    (hknown : ∀ label ∈ labels, label.id < s.labelCount)
    (hinner : ∀ label ∈ inner, label ∈ labels ∨ s.labelCount ≤ label.id) :
    Protects labels s s' where
  toAdvances := h.toAdvances.behind hquiet hknown hinner
  records := (h.records.behind hquiet).mono fun _ _ _ hentries => hentries.mono hquiet.offset le_rfl

theorem fresh (count : Nat) (s : State) :
    Protects (s.ownLabels count) (s.newLabels count) (s.newLabels count) :=
  .refl known_ownLabels

theorem ofNewLabels (h : Protects (s.ownLabels count) (s.newLabels count) s') :
    Protects [] s s' :=
  h.behind ((Quiet.refl [] s).newLabels count) (List.forall_mem_nil _) fun _ hmem =>
    .inr (le_of_mem_ownLabels hmem)

section

variable (h : Protects labels s m)

include h

theorem context (hassembler : s'.assembler = m.assembler)
    (hroutines : s'.localRoutines = m.localRoutines) : Protects labels s s' :=
  h.trans (.of_quiet (List.forall_mem_nil _) ((Quiet.refl [] m).context hassembler hroutines))

omit h in
theorem within {t' : State} (h : Protects [] t t') (hstart : t.assembler = s.assembler)
    (hbefore : t.localRoutines = s.localRoutines) (hend : s'.assembler = t'.assembler)
    (hafter : s'.localRoutines = t'.localRoutines) : Protects [] s s' :=
  (((nil s).context hstart hbefore).trans h).context hend hafter

theorem call {call : Call} (hregions : call.regions = [])
    (hbound : ∀ label ∈ call.bound?, label ∈ labels) : Protects labels s (m.emits call) := by
  have hinner : call.bound?.toList ⊆ labels := fun label hmem =>
    hbound label (Option.mem_toList.mp hmem)
  exact h.andJob (fun hknown => .of_quiet hknown (Quiet.call m call hregions)) hinner

theorem emits (call : Call) (hregions : call.regions = [])
    (hbound : call.bound? = none) : Protects labels s (m.emits call) :=
  h.call hregions fun label hmem => by
    rw [hbound] at hmem
    cases hmem

theorem bind (hlabel : label ∈ labels) :
    Protects labels s (m.emits (.bind label)) :=
  h.call rfl fun other hmem => by
    obtain rfl := Option.some.inj hmem
    exact hlabel

theorem emitsAll {calls : List Call}
    (hcalls : ∀ call ∈ calls, call.regions = [] ∧ ∀ label ∈ call.bound?, label ∈ labels) :
    Protects labels s (m.emitsAll calls) := by
  induction calls generalizing m with
  | nil => exact h
  | cons first rest ih =>
    obtain ⟨hfirst, hrest⟩ := List.forall_mem_cons.mp hcalls
    exact ih (h.call hfirst.1 hfirst.2) hrest

theorem emitsAll_of_quiet {calls : List Call} (hquiet : ∀ call ∈ calls, call.Unmarked) :
    Protects labels s (m.emitsAll calls) := by
  refine h.emitsAll fun call hcall => ⟨(hquiet call hcall).2, fun label hlabel => ?_⟩
  rw [(hquiet call hcall).1] at hlabel
  cases hlabel

theorem discard (ty : Ty) : Protects labels s (m.discard ty) := by
  unfold State.discard
  split_ifs
  · exact h
  · exact h.emits (.pop ty.width) rfl rfl

theorem enterScope : Protects labels s m.enterScope :=
  (h.emits .enterFrame rfl rfl).context rfl rfl

theorem exitScope : Protects labels s m.exitScope := by
  have hslots : Protects labels s m.exitSlotScope := h.context rfl rfl
  exact hslots.emits .exitFrame rfl rfl

theorem onSlots (f : Slots → Slots) : Protects labels s (m.onSlots f) :=
  h.context rfl rfl

theorem pushFlow (flow : Flow) : Protects labels s (m.pushFlow flow) :=
  h.context rfl rfl

theorem popFlow : Protects labels s m.popFlow := h.context rfl rfl

theorem withSlots (slots : Slots) : Protects labels s (m.withSlots slots) :=
  h.context rfl rfl

theorem setLocal (slot : UInt16) : Protects labels s (m.emits (.setLocal slot)) :=
  h.emits _ rfl rfl

theorem jump (label : Label) : Protects labels s (m.emits (.jump .jump label)) :=
  h.emits _ rfl rfl

theorem reserveAll (names : List String) : Protects labels s (m.reserveAll names) := by
  induction names generalizing m with
  | nil => exact h
  | cons name rest ih => exact ih (h.context rfl rfl)

theorem rewrites {env : Env} {tree rewritten : Tree}
    (hrewrites : Rewrites env m tree rewritten s') : Protects labels s s' := by
  cases hrewrites with
  | indexed | iterator | synchronized | hashed => exact h.context rfl rfl

end

end Protects

theorem records_region (s : State) (start stop handler : Label) (catches : Option Digest) :
    s.Records (s.emits (.region start stop handler catches)) fun position entries =>
      entries = [⟨position start, position stop, position handler, catches⟩] :=
  ⟨[⟨start, stop, handler, catches⟩], Call.regions_run _ _, fun _ _ => rfl⟩

theorem advances_region (s : State) (start stop handler : Label) (catches : Option Digest) :
    Advances [] s (s.emits (.region start stop handler catches)) where
  known := List.forall_mem_nil _
  binds := (BindsOnly.refl [] s).emits rfl
  offset := (offset_emits rfl).ge
  routines := fun _ => .inl

theorem Locates.eq_offset (h : Locates position s s') (hnew : s.labelCount ≤ label.id)
    (hknown : label.id < m.labelCount) (hafter : BindsOnly labels (m.emits (.bind label)) s')
    (hnot : label ∉ labels) :
    position label = m.offset := by
  apply h label hnew
  have hcount := ((BindsOnly.refl [label] m).bind (.inl List.mem_cons_self)).count
  rw [hafter.kept label (hknown.trans_le hcount) hnot]
  exact position?_bind hknown

theorem Resolves.of_data_eq {env : Env} {ty resolved : Ty} (h : s'.data = s.data)
    (hty : Resolves env s' ty resolved) : Resolves env s ty resolved := by
  rw [Resolves, currentType] at hty ⊢
  rwa [← h]

/-- What the clauses of a region record, given what has been recorded for the region
so far. -/
structure Handles (env : Env) (start stop : Label) (catches : List Catch)
    (ranges : List (Label × Label)) (s s' : State) : Prop extends Advances [] s s' where
  records : ∃ types, List.Forall₂ (fun clause ty => Resolves env s clause.ty ty) catches types ∧
    s.Records s' fun position added => ∀ caught bodies entries,
      ExceptionEntry.Guarded (position start) (position stop) s.offset caught bodies entries →
      ExceptionEntry.Guarded (position start) (position stop) s'.offset (caught ++ types)
        (bodies ++ ranges.map (Prod.map position position)) (entries ++ added)

/-- What the handler of all exceptions records for the ranges it protects. -/
structure HandlesAll (cleanup : Option Tree) (ranges : List (Label × Label)) (s s' : State) :
    Prop extends Advances [] s s' where
  records : s.Records s' fun position added => ∃ last,
    ExceptionEntry.Layered s.offset s'.offset last ∧
    added = (if cleanup.isSome then
      (ranges.map (Prod.map position position)).map (.catchAll s.offset) else []) ++ last

section Clause

variable {env : Env} {start stop exit : Label} {clause : Catch} {rest : List Catch}
  {ranges : List (Label × Label)} {ty : Ty} {slot : UInt16} {slots : Slots} {m' : State}

/-- The handler of a clause starts here, and its region is recorded. -/
def enterClause (s : State) (start stop : Label) (digest : Digest) : State :=
  (s.newLabels 2).emitsAll [.bind (s.label 0), .region start stop (s.label 0) (some digest)]

theorem Handles.nil (env : Env) (start stop : Label) (s : State) :
    Handles env start stop [] [] s s where
  toAdvances := (Protects.nil s).toAdvances
  records := ⟨[], .nil, [], (List.append_nil _).symm, fun _ _ caught bodies entries h => by
    simpa using h⟩

theorem Handles.cons (hty : Resolves env s clause.ty ty)
    (hbody : Protects [] (((s.enterClause start stop ty.digest).enterScope.withSlots slots).emits
      (.setLocal slot)) m)
    (hcopy : Protects [] (m.exitScope.emits (.bind (s.label 1))) m') (hdata : m'.data = s.data)
    (hrest : Handles env start stop rest ranges (m'.emits (.jump .jump exit)) s') :
    Handles env start stop (clause :: rest) ((s.label 0, s.label 1) :: ranges) s s' := by
  -- The handler starts at `a`, and what the clause does ends at `c`.
  let a := (s.newLabels 2).emits (.bind (s.label 0))
  let b := s.enterClause start stop ty.digest
  let c := m.exitScope
  let d := m'.emits (.jump .jump exit)
  have hopen : Quiet [] s a := ((Quiet.refl [] s).newLabels 2).bind (s.le_label 0)
  have hknown : ∀ label ∈ [s.label 1], label.id < a.labelCount :=
    List.forall_mem_singleton.mpr
      ((pending_newLabels s Nat.one_lt_two).bind (s.label_ne Nat.one_ne_zero)).known
  have hregion : Advances [s.label 1] a b :=
    (Protects.refl hknown).toAdvances.trans (a.advances_region _ _ _ _)
  have hinner : Protects [] b c :=
    ((((Protects.nil b).enterScope.withSlots _).setLocal _).trans hbody).exitScope
  have hreached := hregion.trans hinner.toAdvances
  have hbehind : Protects [s.label 1] c d := by
    refine (((Protects.refl fun label hmem => ?_).bind List.mem_cons_self).trans hcopy).jump exit
    exact (hknown label hmem).trans_le hreached.binds.count
  have hdone := hreached.andThen hbehind.toAdvances (List.Subset.refl _)
  obtain ⟨types, htypes, hentries⟩ := hrest.records
  refine ⟨(hdone.trans hrest.toAdvances).behind hopen (List.forall_mem_nil _)
    (List.forall_mem_singleton.mpr (.inr (s.le_label 1))), ty :: types, .cons hty ?_, ?_⟩
  · exact htypes.imp fun clause ty => Resolves.of_data_eq hdata
  · have hregions := hdone.records hrest.toAdvances (List.nil_subset _)
      (hreached.records hbehind.toAdvances (List.Subset.refl _)
        (hregion.records hinner.toAdvances (List.nil_subset _) (a.records_region _ _ _ _)
          hinner.records) hbehind.records) hentries
    refine (hregions.behind hopen).mono ?_
    rintro position _ hlocates
      ⟨_, added, rfl, ⟨_, copy, rfl, ⟨_, inner, rfl, rfl, hinner'⟩, hcopied⟩, hadded⟩ caught bodies
      entries hguarded
    have hstart : position (s.label 0) = s.offset := by
      rw [hlocates.eq_offset (s.le_label 0) (pending_newLabels s Nat.two_pos).known
        (hdone.trans hrest.toAdvances).binds (by simp [s.label_ne Nat.zero_ne_one]),
        offset_newLabels]
    have hstop : position (s.label 1) = c.offset :=
      hlocates.eq_offset (s.le_label 1)
        ((hknown _ List.mem_cons_self).trans_le hreached.binds.count)
        ((hcopy.jump exit).toAdvances.trans hrest.toAdvances).binds List.not_mem_nil
    have hoffset : b.offset = s.offset := by
      change (a.emits _).offset = _
      rw [offset_emits rfl, offset_emits rfl, offset_newLabels]
    have hcopy' : c.offset < d.offset := by
      have hbound := hcopy.offset
      rw [offset_emits rfl] at hbound
      exact hbound.trans_lt (m'.offset_lt_jump exit)
    have hlength : s.offset ≤ c.offset := hoffset ▸ hinner.offset
    have hclause := hguarded.clause ty (hinner'.mono hoffset.ge le_rfl) hcopied hlength hcopy'
    rw [hstart]
    simpa [Prod.map, hstart, hstop] using hadded _ _ _ hclause

end Clause

section CatchAll

variable {cleanup : Tree} {ranges : List (Label × Label)} {slot : UInt16} {slots : Slots}

/-- The handler of all exceptions starts here, and its regions are recorded. -/
def enterCatchAll (s : State) (ranges : List (Label × Label)) : State :=
  (s.newLabels 1).emitsAll (.bind (s.label 0) ::
    ranges.map fun range => .region range.1 range.2 (s.label 0) none)

/-- Regions are recorded for a list of ranges. -/
theorem advances_regions (s : State) (handler : Label) (ranges : List (Label × Label)) :
    Advances [] s (s.emitsAll (ranges.map fun range => .region range.1 range.2 handler none)) ∧
      s.Records (s.emitsAll (ranges.map fun range => .region range.1 range.2 handler none))
        fun position entries => entries =
          (ranges.map (Prod.map position position)).map (.catchAll (position handler)) := by
  induction ranges generalizing s with
  | nil => exact ⟨(Protects.nil s).toAdvances, [], (List.append_nil _).symm, fun _ _ => rfl⟩
  | cons range rest ih =>
    have hfirst := s.advances_region range.1 range.2 handler none
    obtain ⟨hrest, hrecords⟩ := ih (s.emits (.region range.1 range.2 handler none))
    refine ⟨hfirst.trans hrest, (hfirst.records hrest (List.nil_subset _)
      (s.records_region _ _ _ _) hrecords).mono ?_⟩
    rintro position _ _ ⟨_, _, rfl, rfl, rfl⟩
    rfl

theorem HandlesAll.none (ranges : List (Label × Label)) (s : State) :
    HandlesAll none ranges s s where
  toAdvances := (Protects.nil s).toAdvances
  records := ⟨[], (List.append_nil _).symm, fun _ _ => ⟨[], .nil _ _, rfl⟩⟩

theorem HandlesAll.some
    (hbody : Protects [] ((((s.enterCatchAll ranges).enterSlotScope.takeName "$throwable").withSlots
      slots).emits (.setLocal slot)) m) :
    HandlesAll (some cleanup) ranges s
      (m.emitsAll [.getLocal slot, .op .raise]).exitSlotScope := by
  let a := (s.newLabels 1).emits (.bind (s.label 0))
  have hopen : Quiet [] s a := ((Quiet.refl [] s).newLabels 1).bind (s.le_label 0)
  obtain ⟨hregions, hrecords⟩ := a.advances_regions (s.label 0) ranges
  have hlast : Protects [] (s.enterCatchAll ranges)
      (m.emitsAll [.getLocal slot, .op .raise]).exitSlotScope := by
    have hstart : Protects [] (s.enterCatchAll ranges)
        ((s.enterCatchAll ranges).enterSlotScope.takeName "$throwable") :=
      (Protects.nil _).context rfl rfl
    have hcopy := ((hstart.withSlots slots).setLocal slot).trans hbody
    exact ((hcopy.emits (.getLocal slot) rfl rfl).emits (.op .raise) rfl rfl).onSlots _
  have hall := hregions.trans hlast.toAdvances
  refine ⟨hall.behind hopen (List.forall_mem_nil _) (List.forall_mem_nil _), ?_⟩
  refine ((hregions.records hlast.toAdvances (List.nil_subset _) hrecords hlast.records).behind
    hopen).mono ?_
  rintro position _ hlocates ⟨_, last, rfl, rfl, hlayered⟩
  have hhandler : position (s.label 0) = s.offset := by
    rw [hlocates.eq_offset (s.le_label 0) (pending_newLabels s Nat.one_pos).known hall.binds
      List.not_mem_nil, offset_newLabels]
  rw [hhandler]
  exact ⟨last, hlayered.mono (hopen.offset.trans hregions.offset) le_rfl, rfl⟩

end CatchAll

section Guarded

variable {env : Env} {catches : List Catch} {cleanup pending : Option Tree}
  {ranges : List (Label × Label)} {m₁ m₂ m₃ m₄ : State}

theorem Quiet.pushCleanup? (h : Quiet labels s m) (cleanup : Option Tree) :
    Quiet labels s (m.pushCleanup? cleanup) := by
  cases cleanup <;> exact h.context rfl rfl

theorem Quiet.popCleanup? (h : Quiet labels s m) (cleanup : Option Tree) :
    Quiet labels s (m.popCleanup? cleanup) := by
  cases cleanup <;> exact h.context rfl rfl

/-- The body of a region starts here. -/
def enterRegion (s : State) (cleanup : Option Tree) : State :=
  ((s.newLabels 3).pushCleanup? cleanup).emits (.bind (s.label 0))

theorem quiet_enterRegion (s : State) (cleanup : Option Tree) :
    Quiet [] s (s.enterRegion cleanup) :=
  (((Quiet.refl [] s).newLabels 3).pushCleanup? cleanup).bind (s.le_label 0)

theorem known_enterRegion (s : State) (cleanup : Option Tree) {index : Nat} (hlt : index < 3) :
    (s.label index).id < (s.enterRegion cleanup).labelCount := by
  have hlabels : BindsOnly [s.label 0] (s.newLabels 3) (s.enterRegion cleanup) :=
    ((BindsOnly.refl _ _).pushCleanup? cleanup).bind (.inl List.mem_cons_self)
  exact (pending_newLabels s hlt).known.trans_le hlabels.count

theorem offset_pushCleanup? (s : State) (cleanup : Option Tree) :
    (s.pushCleanup? cleanup).offset = s.offset := by
  cases cleanup <;> rfl

theorem offset_popCleanup? (s : State) (cleanup : Option Tree) :
    (s.popCleanup? cleanup).offset = s.offset := by
  cases cleanup <;> rfl

/-- What a region records is nested. The entries for the range of its body are those
of its clauses, in their order, and after them the one of its cleanup. -/
theorem records_guarded
    (hbody : Protects [] (s.enterRegion cleanup) m₁)
    (hcopy : Protects [] (m₁.emits (.bind (s.label 1))) m₂)
    (hclauses : Handles env (s.label 0) (s.label 1) catches ranges
      (m₂.emits (.jump .jump (s.label 2))) m₃)
    (hcatchAll : HandlesAll pending ((s.label 0, s.label 1) :: ranges) (m₃.popCleanup? cleanup) m₄)
    (hdata : m₂.data = s.data) :
    Advances [] s (m₄.emits (.bind (s.label 2))) ∧
      ∃ types, List.Forall₂ (fun clause ty => Resolves env s clause.ty ty) catches types ∧
        s.Records (m₄.emits (.bind (s.label 2))) fun _ entries =>
          ExceptionEntry.Layered s.offset (m₄.emits (.bind (s.label 2))).offset entries ∧
          (s.offset < m₁.offset →
            (entries.filter (ExceptionEntry.spans s.offset m₁.offset)).map ExceptionEntry.catches =
              types.map (some ·.digest) ++ if pending.isSome then [none] else []) := by
  -- The body starts at `a`, and the clauses start at `c`.
  let a := s.enterRegion cleanup
  let c := m₂.emits (.jump .jump (s.label 2))
  have hopen : Quiet [] s a := s.quiet_enterRegion cleanup
  have hknown (index : Nat) (hlt : index < 3) : (s.label index).id < a.labelCount :=
    s.known_enterRegion cleanup hlt
  have hreached : Advances [s.label 1, s.label 2] a m₁ := by
    refine (Protects.refl ?_).toAdvances.trans hbody.toAdvances
    simp [hknown]
  have hbehind : Protects [s.label 1] m₁ c := by
    refine (((Protects.refl ?_).bind List.mem_cons_self).trans hcopy).jump _
    exact List.forall_mem_singleton.mpr ((hknown 1 (by omega)).trans_le hreached.binds.count)
  have hcopied := hreached.andThen hbehind.toAdvances (by simp)
  have hhandled := hcopied.trans hclauses.toAdvances
  have hclosed : Quiet [] m₃ (m₃.popCleanup? cleanup) := (Quiet.refl [] m₃).popCleanup? cleanup
  have hlast : Advances [] m₃ m₄ :=
    hcatchAll.toAdvances.behind hclosed (List.forall_mem_nil _) (List.forall_mem_nil _)
  have hdone := hhandled.trans hlast
  have hexit : Advances [s.label 2] m₄ (m₄.emits (.bind (s.label 2))) := by
    refine ((Protects.refl ?_).bind List.mem_cons_self).toAdvances
    exact List.forall_mem_singleton.mpr ((hknown 2 (by omega)).trans_le hdone.binds.count)
  have hall := hdone.andThen hexit (by simp)
  obtain ⟨types, htypes, hentries⟩ := hclauses.records
  refine ⟨hall.behind hopen (List.forall_mem_nil _) (by simp [s.le_label]), types,
    htypes.imp fun clause ty => Resolves.of_data_eq hdata, ?_⟩
  have hregions := hhandled.records hlast (List.nil_subset _)
    (hcopied.records hclauses.toAdvances (List.nil_subset _)
      (hreached.records hbehind.toAdvances (by simp) hbody.records hbehind.records) hentries)
    (hcatchAll.records.behind hclosed)
  refine ((hregions.andQuiet (Quiet.call m₄ (.bind (s.label 2)) rfl) ?_).behind hopen).mono ?_
  · exact List.forall_mem_singleton.mpr (hknown 2 (by omega))
  rintro position _ hlocates
    ⟨_, _, rfl, ⟨_, added, rfl, ⟨inner, copy, rfl, hinner, hcopied⟩, hadded⟩, last, hlayered, rfl⟩
  have hoffset : ((s.newLabels 3).pushCleanup? cleanup).offset = s.offset := by
    rw [offset_pushCleanup?, offset_newLabels]
  have hstart : position (s.label 0) = s.offset := by
    have hpushed := ((BindsOnly.refl [] (s.newLabels 3)).pushCleanup? cleanup).count
    rw [← hoffset]
    exact hlocates.eq_offset (s.le_label 0)
      ((pending_newLabels s (by omega)).known.trans_le hpushed) hall.binds (by simp [s.label_ne])
  have hstop : position (s.label 1) = m₁.offset := by
    have hafter := ((hcopy.jump (s.label 2)).toAdvances.trans hclauses.toAdvances).trans hlast
    have hbinds := ((BindsOnly.refl [s.label 2] _).trans hafter.binds).bind
      (.inl List.mem_cons_self)
    exact hlocates.eq_offset (s.le_label 1) ((hknown 1 (by omega)).trans_le hreached.binds.count)
      hbinds (by simp [s.label_ne])
  have hbegin : a.offset = s.offset := (offset_emits rfl).trans hoffset
  have hnext : m₁.offset < c.offset := by
    have hbound := hcopy.offset
    rw [offset_emits rfl] at hbound
    exact hbound.trans_lt (m₂.offset_lt_jump _)
  rw [offset_popCleanup?] at hlayered ⊢
  rw [hstart, hstop] at hadded
  have hguarded := hadded [] [] _ (.body (hinner.mono hbegin.ge le_rfl) hcopied
    (hbegin ▸ hbody.offset) hnext)
  have hcomplete := hguarded.complete pending.isSome hlayered hlast.offset
  rw [offset_emits rfl]
  simpa [hstart, hstop] using hcomplete

end Guarded

end State

namespace Job

/-- The job is neither a list of jobs nor one of the parts of a region. -/
def isPlain : Job → Bool
  | .clauses .. | .catchAll .. | .seq _ => false
  | _ => true

/-- What a job records, if it is told to bind labels that are there. -/
def Protects (env : Env) : Job → State → State → Prop
  | .clauses start stop _ _ catches ranges, s, s' =>
    State.Handles env start stop catches ranges s s'
  | .catchAll pending ranges, s, s' => State.HandlesAll pending ranges s s'
  | .seq jobs, s, s' => (∀ job ∈ jobs, job.isPlain = true) →
    (∀ label ∈ bindsAll jobs, label.id < s.labelCount) → State.Protects (bindsAll jobs) s s'
  | job, s, s' => (∀ label ∈ job.binds, label.id < s.labelCount) → State.Protects job.binds s s'

variable {env : Env} {s s' : State}

theorem Protects.of_isPlain {job : Job} (h : job.Protects env s s') (hplain : job.isPlain = true)
    (hknown : ∀ label ∈ job.binds, label.id < s.labelCount) : State.Protects job.binds s s' := by
  cases job with
  | clauses | catchAll | seq => cases hplain
  | _ => exact h hknown

theorem Protects.of_map {α : Type} {items : List α} {f : α → Job}
    (h : Protects env (.seq (items.map f)) s s') (hplain : ∀ item, (f item).isPlain = true)
    (hbinds : ∀ item, (f item).binds = []) : State.Protects [] s s' := by
  have hnone : bindsAll (items.map f) = [] := bindsAll_map hbinds items
  have hseq := h (List.forall_mem_map.mpr fun item _ => hplain item)
  rw [hnone] at hseq
  exact hseq (List.forall_mem_nil _)

end Job

theorem Misses.known_detour {s : State} {body : Tree} {otherwise : Option Tree}
    {elseLabel done miss : Label} {detour : Option Lowering.Detour}
    (h : Misses s body otherwise elseLabel done miss detour t) :
    ∀ label ∈ (Job.detour detour).binds, label.id < t.labelCount := by
  cases h with
  | plain | direct => exact List.forall_mem_nil _
  | detour => exact List.forall_mem_singleton.mpr (State.pending_newLabels s Nat.one_pos).known

/-- The table of a finished routine is nested, and so are those of the routines
declared in it. -/
theorem State.Protects.nested {nest : Nest} {shared : Shared} {info : RoutineInfo}
    {output : RoutineOutput} (h : State.Protects [] (.initial nest shared info) t)
    (hfinish : t.finish = .ok output) :
    output.code.Nested ∧ ∀ routine ∈ output.localRoutines, routine.code.Nested := by
  obtain ⟨code, hcode, houtput⟩ := bind_eq_ok.mp hfinish
  obtain rfl := Except.ok.inj houtput
  obtain ⟨added, hregions, hentries⟩ := h.records
  have hlayered := hentries t.assembler.positionOf fun label _ offset hoffset =>
    Assembler.positionOf_eq hoffset
  have hadded : t.assembler.regions.toList = added := hregions
  have hexceptions := Assembler.exceptions_eq hcode
  rw [hadded] at hexceptions
  refine ⟨⟨fun entry hmem => ?_, ?_⟩, fun routine hmem => ?_⟩
  · rw [hexceptions, List.mem_filter] at hmem
    exact ⟨of_decide_eq_true hmem.2, (hlayered.bounds entry hmem.1).2.2.1.le⟩
  · rw [hexceptions]
    exact hlayered.ordered.filter _
  · exact (h.routines routine hmem).resolve_left List.not_mem_nil

namespace Lowers

open State (Quiet mem_ownLabels known_ownLabels)
open State.Protects (fresh ofNewLabels)

theorem protects {env : Env} {job : Job} {s s' : State} (h : Lowers env job s s') :
    job.Protects env s s' := by
  induction h with
  | value _ ih | statement _ ih =>
    intro _
    exact (ih (List.forall_mem_nil _)).within rfl rfl rfl rfl
  | inScope _ ih =>
    intro _
    exact ((State.Protects.nil _).enterScope.trans (ih (List.forall_mem_nil _))).exitScope
  | nil =>
    intro _ _
    exact .nil _
  | cons _ _ ih ih' =>
    intro hplain hknown
    obtain ⟨hfirst, hrest⟩ := List.forall_mem_cons.mp hplain
    have hstart := (State.Protects.refl hknown).andJob (ih.of_isPlain hfirst)
      (List.subset_append_left _ _)
    exact hstart.andJob (ih' hrest) (List.subset_append_right _ _)
  | @operation _ _ s _ hoperation _ ih =>
    intro _
    have hfirst := (State.Protects.nil s).emitsAll_of_quiet hoperation.unmarked.1
    exact ((hfirst.trans (ih.of_map (fun _ => rfl) fun _ => rfl)).emitsAll_of_quiet
      hoperation.unmarked.2).discard _
  | bridged _ hbridged _ ih =>
    intro _
    obtain ⟨bridges, rfl⟩ := State.bridged_keeps hbridged
    exact (ih (List.forall_mem_nil _)).within rfl rfl rfl rfl
  | rewritten hrewrites _ ih =>
    intro _
    have hstart := ((State.Protects.nil _).onSlots _).rewrites hrewrites
    exact (hstart.trans (ih (List.forall_mem_nil _))).onSlots _
  | enumSwitch _ _ ih => exact ih
  | block _ ih => exact fun _ => ih.of_map (fun _ => rfl) fun _ => rfl
  | declared => exact fun _ => (State.Protects.nil _).withSlots _
  | initialized _ _ _ ih => exact fun _ => ((ih (List.forall_mem_nil _)).withSlots _).setLocal _
  | sameJumps _ _ _ ih ih' =>
    exact fun _ => (ih (List.forall_mem_nil _)).trans (ih' (List.forall_mem_nil _))
  | skipJumps _ _ _ ih ih' =>
    intro _
    have hjumps := (ih (List.forall_mem_nil _)).trans (ih' (List.forall_mem_nil _))
    exact ofNewLabels (((fresh 1 _).trans hjumps).bind (mem_ownLabels Nat.one_pos))
  | notJumps _ ih => exact ih
  | literalJumps => exact fun _ => (State.Protects.nil _).jump _
  | literalSkips => exact fun _ => .nil _
  | testJumps _ _ ih => exact fun _ => (ih (List.forall_mem_nil _)).emits _ rfl rfl
  | logical _ ih =>
    intro _
    have hjumps := (fresh 2 _).trans (ih (List.forall_mem_nil _))
    refine (ofNewLabels (hjumps.emitsAll ?_)).discard _
    simp [Call.regions, Call.bound?, mem_ownLabels]
  | cleanup htaken _ ih =>
    intro _
    exact (ih (List.forall_mem_nil _)).within rfl rfl rfl rfl
  | noCleanup => exact fun _ => .nil _
  | cleanups _ ih => exact fun _ => ih.of_map (fun _ => rfl) fun _ => rfl
  | leave _ _ ih => exact fun _ => (ih (List.forall_mem_nil _)).jump _
  | returnVoid _ ih => exact fun _ => (ih (List.forall_mem_nil _)).emits _ rfl rfl
  | returnValue _ _ _ ih => exact fun _ => (ih (List.forall_mem_nil _)).emits _ rfl rfl
  | returnSaved _ _ _ _ _ ih ih' =>
    intro _
    have hvalue := ih (List.forall_mem_nil _)
    have hcopies := (((hvalue.onSlots _).withSlots _).withSlots _).setLocal _ |>.trans
      (ih' (List.forall_mem_nil _))
    exact ((hcopies.emits (.getLocal _) rfl rfl).emits (.ret _) rfl rfl).onSlots _
  | @branch _ _ _ _ detour s t _ _ _ _ hmiss _ _ _ _ ih₁ ih₂ ih₃ ih₄ =>
    intro _
    -- The label of a detour is handed out after the others.
    obtain ⟨count, hcount⟩ := hmiss.newLabels
    have hmissed := (Quiet.refl [] (s.newLabels 4)).newLabels count
    rw [← hcount] at hmissed
    have hknown : ∀ label ∈ s.ownLabels 4 ++ (Job.detour detour).binds,
        label.id < t.labelCount :=
      List.forall_mem_append.mpr ⟨fun label hmem =>
        (known_ownLabels label hmem).trans_le hmissed.binds.count, hmiss.known_detour⟩
    have hown {index : Nat} (hlt : index < 4) :
        s.label index ∈ s.ownLabels 4 ++ (Job.detour detour).binds :=
      List.mem_append_left _ (mem_ownLabels hlt)
    have hcondition := ((State.Protects.refl hknown).bind (hown (by omega))).trans
      (ih₁ (List.forall_mem_nil _))
    have hbody := (hcondition.bind (hown (by omega))).trans (ih₂ (List.forall_mem_nil _))
    have hdetour := hbody.andJob ih₃ (List.subset_append_right _ _)
    have hotherwise := hdetour.andJob ih₄
      (List.cons_subset.mpr ⟨hown (by omega), List.nil_subset _⟩)
    refine ofNewLabels ((hotherwise.bind (hown (by omega))).behind hmissed known_ownLabels ?_)
    exact List.forall_mem_append.mpr ⟨fun _ => .inl, fun label hmem =>
      .inr (hmiss.binds_detour label hmem)⟩
  | noDetour => exact fun _ => .nil _
  | detour _ ih =>
    intro hknown
    exact (((State.Protects.refl hknown).bind List.mem_cons_self).trans
      (ih (List.forall_mem_nil _))).jump _
  | noElse => exact fun hknown => .refl hknown
  | hasElse _ ih =>
    intro hknown
    exact (((State.Protects.refl hknown).jump _).bind List.mem_cons_self).trans
      (ih (List.forall_mem_nil _))
  | @forLoop _ _ _ _ _ s m₁ _ _ _ _ _ _ _ ih₁ ih₂ ih₃ ih₄ =>
    intro _
    have hinit := (State.Protects.nil s).enterScope.trans (ih₁.of_map (fun _ => rfl) fun _ => rfl)
    have hbody := (((fresh 4 m₁).jump _).pushFlow _).bind (mem_ownLabels (by omega)) |>.trans
      (ih₂ (List.forall_mem_nil _))
    have hupdate := (hbody.bind (mem_ownLabels (by omega))).trans
      (ih₃.of_map (fun _ => rfl) fun _ => rfl)
    have htest := (hupdate.popFlow.bind (mem_ownLabels (by omega))).trans
      (ih₄ (List.forall_mem_nil _))
    exact (hinit.trans (ofNewLabels (htest.bind (mem_ownLabels (by omega))))).exitScope
  | @whileLoop _ _ _ bodyFirst s _ _ _ _ ih₁ ih₂ =>
    intro _
    have hstart : State.Protects (s.ownLabels 4) (s.newLabels 4) ((s.newLabels 4).emitsAll
        (if bodyFirst then [] else [.jump .jump s.loopLabels.condition])) := by
      refine (fresh 4 s).emitsAll_of_quiet ?_
      cases bodyFirst <;> simp [Call.Unmarked, Call.bound?, Call.regions]
    have hbody := ((hstart.pushFlow _).bind (mem_ownLabels (by omega))).trans
      (ih₁ (List.forall_mem_nil _))
    have htest := (hbody.popFlow.bind (mem_ownLabels (by omega))).trans
      (ih₂ (List.forall_mem_nil _))
    exact ofNewLabels (htest.bind (mem_ownLabels (by omega)))
  | tested _ ih => exact ih
  | endless => exact fun _ => (State.Protects.nil _).jump _
  | @intSwitch _ _ _ _ _ _ _ encoding targets s m₁ m₂ _ _ _ _ _ _ _ htargets _ _ ih₁ ih₂ ih₃ =>
    intro _
    have hvalue := ((fresh 4 s).bind (mem_ownLabels (by omega))).pushFlow _ |>.trans
      (ih₁ (List.forall_mem_nil _))
    -- The labels of the arms are handed out behind the value.
    obtain ⟨count, hcount⟩ := State.newLabels_of_armTargets htargets
    have htaken := (Quiet.refl [] m₁).newLabels count
    rw [← hcount] at htaken
    have hvalued : ∀ label ∈ s.ownLabels 4, label.id < m₁.labelCount := fun label hmem =>
      (hvalue.known label hmem).trans_le hvalue.binds.count
    have hknown : ∀ label ∈ s.ownLabels 4 ++ targets.map Prod.snd, label.id < m₂.labelCount := by
      refine List.forall_mem_append.mpr ⟨fun label hmem =>
        (hvalued label hmem).trans_le htaken.binds.count, List.forall_mem_map.mpr ?_⟩
      intro target htarget
      rcases State.label_of_mem_armTargets htargets target htarget with hshared | hnew
      · rw [hshared]
        exact (hvalued _ (mem_ownLabels (by omega))).trans_le htaken.binds.count
      · exact hnew.2
    have hown {index : Nat} (hlt : index < 4) :
        s.label index ∈ s.ownLabels 4 ++ targets.map Prod.snd :=
      List.mem_append_left _ (mem_ownLabels hlt)
    have hdispatch := ((State.Protects.refl hknown).emits _
      (unmarked_dispatchCall encoding (s.label 2) targets).2 (unmarked_dispatchCall _ _ _).1).bind
        (hown (by omega : 1 < 4))
    have harms := hdispatch.andJob (ih₂ (List.forall_mem_map.mpr fun _ _ => rfl)) <| by
      intro label hmem
      obtain ⟨job, hjob, hlabel⟩ := Job.mem_bindsAll.mp hmem
      obtain ⟨pair, hpair, rfl⟩ := List.mem_map.mp hjob
      obtain rfl := List.mem_singleton.mp hlabel
      exact List.mem_append_right _ (List.mem_map_of_mem (List.of_mem_zip hpair).2)
    have hdefault := (harms.bind (hown (by omega : 2 < 4))).trans
      (ih₃.of_map (fun _ => rfl) fun _ => rfl)
    have hexit := hdefault.popFlow.bind (hown (by omega : 3 < 4))
    have hbehind := hexit.behind htaken hvalued fun label hmem => by
      rcases List.mem_append.mp hmem with hmem | hmem
      · exact .inl hmem
      · obtain ⟨target, htarget, rfl⟩ := List.mem_map.mp hmem
        refine (State.label_of_mem_armTargets htargets target htarget).imp (fun hshared => ?_) And.left
        rw [hshared]
        exact mem_ownLabels (by omega)
    exact ofNewLabels (hvalue.andThen hbehind (List.Subset.refl _))
  | sharedArm => exact fun hknown => .refl hknown
  | arm _ _ ih =>
    intro hknown
    exact ((State.Protects.refl hknown).bind List.mem_cons_self).trans
      (ih (List.forall_mem_nil _))
  | @guarded _ _ cleanup _ _ _ _ _ _ hbody hcleanups _ _ ih₁ ih₂ ih₃ ih₄ =>
    intro _
    have hdata := hcleanups.keeps.data.trans hbody.keeps.data
    obtain ⟨hadvances, types, -, hrecords⟩ := State.records_guarded (ih₁ (List.forall_mem_nil _))
      (ih₂ (List.forall_mem_nil _)) ih₃ ih₄ (hdata.trans (by cases cleanup <;> rfl))
    exact ⟨hadvances, hrecords.mono fun _ _ _ hentries => hentries.1⟩
  | noClauses => exact .nil _ _ _ _
  | clause hty _ hbody hcleanups _ ih₁ ih₂ ih₃ =>
    exact .cons hty (ih₁ (List.forall_mem_nil _)) (ih₂ (List.forall_mem_nil _))
      (hcleanups.keeps.data.trans hbody.keeps.data) ih₃
  | noCatchAll => exact .none _ _
  | catchAll ht _ _ ih =>
    subst ht
    exact .some (ih (List.forall_mem_nil _))
  | bodiless => exact fun _ => .nil _
  | localRoutine hdecl hbody houtput ih =>
    intro _
    obtain ⟨hcode, hroutines⟩ := (ih (List.forall_mem_nil _)).nested houtput
    refine ⟨⟨List.forall_mem_nil _, ⟨le_rfl, fun _ _ _ => rfl⟩, le_rfl, fun routine hmem => ?_⟩,
      [], (List.append_nil _).symm, fun _ _ => .nil _ _⟩
    rcases List.mem_append.mp hmem with hmem | hmem
    · exact .inl hmem
    · rcases List.mem_cons.mp hmem with rfl | hmem
      · exact .inr hcode
      · exact .inr (hroutines routine hmem)
  | param => exact fun _ => (State.Protects.nil _).withSlots _
  | body _ _ ih ih' =>
    intro _
    have hparams := ((State.Protects.nil _).reserveAll _).trans
      (ih.of_map (fun _ => rfl) fun _ => rfl)
    refine (hparams.trans (ih' (List.forall_mem_nil _))).emitsAll_of_quiet ?_
    split_ifs <;> simp [Call.Unmarked, Call.bound?, Call.regions]

variable {env : Env} {body : Tree} {catches : List Catch} {cleanup : Option Tree} {s s' : State}

/-- The clauses of a region and its cleanup handle the range of the body, in this
order. -/
theorem records_of_guarded (h : Lowers env (.tree (.guarded body catches cleanup)) s s') :
    ∃ m types, Lowers env (.inScope body) (s.enterRegion cleanup) m ∧
      List.Forall₂ (fun clause ty => Resolves env s clause.ty ty) catches types ∧
      s.Records s' fun _ entries => s.offset < m.offset →
        (entries.filter (ExceptionEntry.spans s.offset m.offset)).map ExceptionEntry.catches =
          types.map (some ·.digest) ++ if cleanup.isSome then [none] else [] := by
  cases h with
  | @guarded _ _ _ ranges _ m₁ m₂ m₃ m₄ hbody hcleanups hclauses hcatchAll =>
    have hdata := hcleanups.keeps.data.trans hbody.keeps.data
    obtain ⟨-, types, htypes, hrecords⟩ := State.records_guarded
      (hbody.protects (List.forall_mem_nil _)) (hcleanups.protects (List.forall_mem_nil _))
      hclauses.protects hcatchAll.protects (hdata.trans (by cases cleanup <;> rfl))
    have hpending : (m₃.pending? cleanup).isSome = cleanup.isSome := by
      cases cleanup with
      | none => rfl
      | some tree =>
        have hkept : m₃.cleanups = (s.newLabels 3).cleanups ++ [⟨tree, _⟩] :=
          (hclauses.keeps.cleanups.trans hcleanups.keeps.cleanups).trans hbody.keeps.cleanups
        change (m₃.cleanups.getLast?.map Cleanup.body).isSome = true
        rw [hkept, List.getLast?_concat]
        rfl
    rw [hpending] at hrecords
    exact ⟨m₁, types, hbody, htypes, hrecords.mono fun _ _ _ hentries => hentries.2⟩
  | operation hother => cases hother.not_isControl
  | bridged hother | rewritten hother | leave hother => cases hother

end Lowers

namespace State

/-- What is recorded on the way stands together in the finished table. -/
theorem Records.exceptions {s s' : State} {code : Code}
    {entries : (Label → Nat) → List ExceptionEntry → Prop} (h : s.Records s' entries)
    (hvalid : s'.slots.Valid) (hrest : s'.Leads t) (hfinish : t.assembler.finish = .ok code) :
    ∃ before own after, code.exceptions = before ++
        own.filter (fun entry => entry.start < entry.stop) ++ after ∧
      entries t.assembler.positionOf own := by
  obtain ⟨added, hregions, hentries⟩ := h
  obtain ⟨rest, hafter⟩ := (hrest.reaches hvalid).regions
  rw [hregions] at hafter
  have hlocates : Locates t.assembler.positionOf s s' := fun label _ offset hoffset =>
    Assembler.positionOf_eq (hrest.positions hoffset)
  have hexceptions := Assembler.exceptions_eq hfinish
  rw [← hafter, List.map_append, List.map_append, List.filter_append, List.filter_append]
    at hexceptions
  exact ⟨_, _, _, hexceptions, hentries _ hlocates⟩

end State

namespace Lowers

variable {env : Env} {first cleanup : Tree} {catches : List Catch} {s s' t : State}
  {output : RoutineOutput}

/-- A body that ends with a return runs the innermost cleanup before it leaves. -/
theorem return_copy {c : Cleanup} {outer : List Cleanup}
    (h : Lowers env (.inScope (.block [first, .ret none])) s s') (hs : s.cleanups = outer ++ [c]) :
    ∃ m m', Lowers env (.inScope c.body) m m' ∧ s.offset ≤ m.offset ∧ m'.offset < s'.offset := by
  cases h with
  | inScope hbody =>
    cases hbody with
    | statement hblock =>
      cases hblock.block_inv rfl with
      | @cons _ _ _ t _ hfirst hrest =>
        cases hrest with
        | cons hlast hnil =>
          cases hnil
          cases hlast with
          | statement hreturn =>
            obtain ⟨k, hcleanups, rfl⟩ := hreturn.returnVoid_inv
            have ht : (t.withDepth 0).cleanups = outer ++ [c] := hfirst.keeps.cleanups.trans hs
            obtain ⟨m, hcopy, hothers⟩ := hcleanups.innermost_first ht (Nat.zero_le _)
            have hstart : s.enterScope.offset ≤ t.offset :=
              (hfirst.protects (List.forall_mem_nil _)).offset
            have hbehind : m.offset ≤ k.offset :=
              (hothers.protects.of_map (fun _ => rfl) fun _ => rfl).offset
            have hleft : k.offset < (k.emits (.op .returnVoid)).offset :=
              k.assembler.offset_lt_place .returnVoid .none
            rw [State.offset_exitScope]
            exact ⟨_, m, hcopy, hstart, hbehind.trans_lt hleft⟩

/-- A region with a cleanup whose body ends with a return. The handler of the cleanup
protects all of the body, and with it the copy of the cleanup that the return runs. -/
theorem return_copy_protected
    (h : Lowers env (.tree (.guarded (.block [first, .ret none]) catches (some cleanup))) s s')
    (hvalid : s'.slots.Valid) (hrest : s'.Leads t) (hfinish : t.finish = .ok output) :
    ∃ c c' : State, ∃ stop, Lowers env (.inScope cleanup) c c' ∧ s.offset ≤ c.offset ∧
      c'.offset < stop ∧ ∀ pc, s.offset ≤ pc → pc < stop →
        ∃ entry ∈ output.code.exceptions, entry.catches = none ∧ entry.covers pc = true := by
  obtain ⟨m, types, hbody, _, hrecords⟩ := h.records_of_guarded
  have hcleanups : (s.enterRegion (some cleanup)).cleanups = s.cleanups ++ [⟨cleanup, _⟩] := rfl
  obtain ⟨c, c', hcopy, hbefore, hbehind⟩ := hbody.return_copy hcleanups
  refine ⟨c, c', m.offset, hcopy, hbefore, hbehind, fun pc hstart hstop => ?_⟩
  obtain ⟨before, own, after, hexceptions, hown⟩ :=
    hrecords.exceptions hvalid hrest (State.finish_eq_ok hfinish).1
  have hlast : none ∈ (own.filter (ExceptionEntry.spans s.offset m.offset)).map
      ExceptionEntry.catches := by
    rw [hown (hstart.trans_lt hstop)]
    exact List.mem_append_right _ List.mem_cons_self
  obtain ⟨entry, hentry, hcatches⟩ := List.mem_map.mp hlast
  obtain ⟨hmem, hspans⟩ := List.mem_filter.mp hentry
  obtain ⟨hfrom, hto⟩ := ExceptionEntry.spans_iff.mp hspans
  rw [← hfrom] at hstart
  rw [← hto] at hstop
  refine ⟨entry, ?_, hcatches, ExceptionEntry.covers_iff.mpr ⟨hstart, hstop⟩⟩
  rw [hexceptions]
  refine List.mem_append_left _ (List.mem_append_right _ (List.mem_filter.mpr ⟨hmem, ?_⟩))
  exact decide_eq_true (hstart.trans_lt hstop)

end Lowers

theorem ExceptionEntry.filter_spans_filter {start stop : Nat} (hlt : start < stop)
    (entries : List ExceptionEntry) :
    (entries.filter fun entry => entry.start < entry.stop).filter (spans start stop) =
      entries.filter (spans start stop) := by
  rw [List.filter_filter]
  refine List.filter_congr fun entry _ => ?_
  by_cases hspans : entry.spans start stop = true
  · obtain ⟨rfl, rfl⟩ := spans_iff.mp hspans
    simp [hspans, hlt]
  · simp [hspans]

namespace Lowering

/-- The exception table of every routine is nested, innermost first, and so are those
of the routines declared in it. Entries cover code that lies before their handler;
where two entries cover the same instruction, the range of the first one lies in the
range of the second one, and if the ranges are the same, the first one catches only a
type. So the first entry that covers an instruction has the smallest range of all
that do. The entries of one region over the range of its body are those of its
clauses, in their order, and then the one of its cleanup. -/
theorem routine_exceptions_nested {decl : RoutineDecl} {env : Env} {shared shared' : Shared}
    {lowered : Routine} {nested : List Routine}
    (h : routine Handlers.standard.process decl env shared = (.ok (lowered, nested), shared')) :
    (∀ routine ∈ lowered :: nested,
      (∀ entry ∈ routine.code.exceptions, entry.start < entry.stop ∧
        entry.stop ≤ entry.handler ∧ entry.covers entry.handler = false) ∧
      (routine.code.exceptions.Pairwise fun first second =>
        ∀ offset, first.covers offset = true → second.covers offset = true →
          (second.start ≤ first.start ∧ first.stop ≤ second.stop) ∧
          (first.start = second.start → first.stop = second.stop → first.catches ≠ none)) ∧
      ∀ offset entry, routine.code.exceptions.find? (·.covers offset) = some entry →
        ∀ other ∈ routine.code.exceptions, other.covers offset = true →
          other.start ≤ entry.start ∧ entry.stop ≤ other.stop) ∧
    ∀ (info : RoutineInfo) (start : Shared) (depth : Nat) (body : Tree) (catches : List Catch)
      (cleanup : Option Tree) (s s' t : State) (output : RoutineOutput),
      (State.initial env.nest start info).Leads s →
      Lower.Runs (guarded (Handlers.standard.run depth) body catches cleanup) env s () s' →
      s'.Leads t → t.finish = .ok output →
      ∃ m types before own after, Lowers env (.inScope body) (s.enterRegion cleanup) m ∧
        List.Forall₂ (fun clause ty => Resolves env s clause.ty ty) catches types ∧
        output.code.exceptions = before ++ own ++ after ∧
        (s.offset < m.offset →
          (own.filter (ExceptionEntry.spans s.offset m.offset)).map ExceptionEntry.catches =
            types.map (some ·.digest) ++ if cleanup.isSome then [none] else []) := by
  refine ⟨?_, ?_⟩
  · obtain ⟨t, output, hbody, hfinish, hresult, rfl⟩ := Derives.routine (Derives.process env) h
    obtain ⟨rfl, rfl⟩ := Prod.mk.inj hresult
    obtain ⟨hcode, hroutines⟩ := (hbody.protects (List.forall_mem_nil _)).nested hfinish
    have hnested : ∀ routine ∈ (assembleRoutine decl output).1 :: output.localRoutines,
        routine.code.Nested := by
      intro routine hmem
      rcases List.mem_cons.mp hmem with rfl | hmem
      · exact hcode
      · exact hroutines routine hmem
    intro routine hmem
    refine ⟨fun entry hentry => ?_, (hnested routine hmem).ordered, fun offset entry =>
      ExceptionEntry.smallest_of_find? (hnested routine hmem).ordered⟩
    obtain ⟨hrange, hhandler⟩ := (hnested routine hmem).bounds entry hentry
    refine ⟨hrange, hhandler, Bool.eq_false_iff.mpr fun hcovers => ?_⟩
    exact (ExceptionEntry.covers_iff.mp hcovers).2.not_ge hhandler
  · intro info start depth body catches cleanup s s' t output hstart hruns hrest hfinish
    have hguarded := Derives.guarded (Derives.run env depth) hruns
    have hvalid : s'.slots.Valid := by
      have hsteps := (hstart.trans (hguarded.leads rfl)).reaches Slots.valid_empty
      exact hsteps.valid Slots.valid_empty
    obtain ⟨m, types, hbody, htypes, hrecords⟩ := hguarded.records_of_guarded
    obtain ⟨before, own, after, hexceptions, hown⟩ :=
      hrecords.exceptions hvalid hrest (State.finish_eq_ok hfinish).1
    refine ⟨m, types, before, _, after, hbody, htypes, hexceptions, fun hlt => ?_⟩
    rw [ExceptionEntry.filter_spans_filter hlt, hown hlt]

/-- Calls a static method of the routine's type. -/
def callMain (name : String) : Tree :=
  .invoke .static (.object "demo.Main") ⟨name, .void, []⟩ none []

/-- Tries again what is late, inside a region with clauses of its own. -/
def retry : Tree :=
  .block [.guarded (callMain "risky") [⟨.object "demo.Late", "late", callMain "retry"⟩] none,
    callMain "commit"]

def refusals : List Catch :=
  [⟨.object "demo.Refused", "refused", callMain "report"⟩,
   ⟨.object "demo.Lost", "lost", callMain "log"⟩]

def retrying : RoutineDecl where
  owner := .object "demo.Main"
  name := "run"
  params := []
  result := .void
  isStatic := true
  body := .guarded retry refusals (some (callMain "close"))

theorem exists_finished {action : Lower Unit} {env : Env} {s : State}
    (hruns : (action env s).1.isOk = true) (hfinish : (action env s).2.finish.isOk = true) :
    ∃ s' output, Lower.Runs action env s () s' ∧ s'.finish = .ok output := by
  rcases hresult : action env s with ⟨outcome, s'⟩
  rw [hresult] at hruns hfinish
  cases outcome with
  | error fault => cases hruns
  | ok value =>
    cases houtput : s'.finish with
    | error fault =>
      rw [houtput] at hfinish
      cases hfinish
    | ok output => exact ⟨s', output, hresult, houtput⟩

/-- The inner region comes first, and the clauses of the outer one come before its
cleanup, which also handles exceptions of the clauses. -/
theorem retrying_exceptions_nested :
    (∃ lowered nested shared', routine Handlers.standard.process retrying ⟨.empty, {}⟩ .empty =
        (.ok (lowered, nested), shared') ∧
      (lowered.code.exceptions.map fun entry => (entry.start, entry.stop, entry.catches.isSome)) =
        [(0, 4, true), (0, 24, true), (0, 24, true), (0, 24, false), (33, 39, false),
          (48, 54, false)] ∧
      ∀ offset entry, lowered.code.exceptions.find? (·.covers offset) = some entry →
        ∀ other ∈ lowered.code.exceptions, other.covers offset = true →
          other.start ≤ entry.start ∧ entry.stop ≤ other.stop) ∧
    ∃ s' output, Lower.Runs (guarded (Handlers.standard.run 4) retry refusals
        (some (callMain "close"))) ⟨.empty, {}⟩ (.initial .empty .empty retrying.info) () s' ∧
      s'.finish = .ok output ∧ ∃ stop types before own after,
        List.Forall₂ (fun clause ty => Resolves ⟨.empty, {}⟩
          (.initial .empty .empty retrying.info) clause.ty ty) refusals types ∧
        output.code.exceptions = before ++ own ++ after ∧
        (0 < stop → (own.filter (ExceptionEntry.spans 0 stop)).map ExceptionEntry.catches =
          types.map (some ·.digest) ++ [none]) := by
  generalize hresult : routine Handlers.standard.process retrying _ _ = result
  obtain ⟨lowered, shared', rfl⟩ := exists_ok hresult (by decide +kernel)
  obtain ⟨htables, hregions⟩ := routine_exceptions_nested hresult
  have htable : _ = some (lowered.1.code.exceptions.map fun entry =>
      (entry.start, entry.stop, entry.catches.isSome)) :=
    congrArg (fun result => result.1.toOption.map fun lowered =>
      lowered.1.code.exceptions.map fun entry =>
        (entry.start, entry.stop, entry.catches.isSome)) hresult
  refine ⟨⟨lowered.1, lowered.2, shared', rfl,
    Option.some.inj (htable.symm.trans (by decide +kernel)),
    (htables lowered.1 List.mem_cons_self).2.2⟩, ?_⟩
  obtain ⟨s', output, hruns, hfinish⟩ : ∃ s' output, Lower.Runs (guarded
      (Handlers.standard.run 4) retry refusals (some (callMain "close"))) ⟨.empty, {}⟩
      (.initial .empty .empty retrying.info) () s' ∧ s'.finish = .ok output :=
    exists_finished (by decide +kernel) (by decide +kernel)
  obtain ⟨m, types, before, own, after, _, htypes, htable, hown⟩ :=
    hregions _ _ _ _ _ _ _ s' s' output (.refl _) hruns (.refl _) hfinish
  exact ⟨s', output, hruns, hfinish, m.offset, types, before, own, after, htypes, htable, hown⟩

end Lowering

end StackLowering
