import StackLowering.Proofs.ExceptionRegions
/-!
Nesting of frame brackets. Which call closes a bracket can be told from the calls
alone: it is the first one that brings the number of open brackets back to what it
was. The frames of finished code are exactly these brackets. Brackets do not cross,
so a frame lies in the ones around it and behind them in the list, and frames of one
depth follow each other.
-/

namespace StackLowering

/-- The number of open brackets after a call. -/
def Call.depth (depth : Nat) : Call → Nat
  | .enterFrame => depth + 1
  | .exitFrame => depth - 1
  | _ => depth

def Call.closesFrame : Call → Bool
  | .exitFrame => true
  | _ => false

theorem Call.closesFrame_iff {call : Call} : call.closesFrame = true ↔ call = .exitFrame := by
  cases call <;> simp [closesFrame]

/-- The number of open brackets after the first `n` calls. -/
def depthAt (calls : List Call) (n : Nat) : Nat := (calls.take n).foldl Call.depth 0

/-- The closing calls that find an open bracket. -/
def closings (calls : List Call) : List Nat :=
  (List.range calls.length).filter fun n => calls[n]?.any Call.closesFrame && 0 < depthAt calls n

/-- The call at `opening` opens a bracket, which stays open up to the call at `closing`. -/
structure Bracket (calls : List Call) (opening closing : Nat) : Prop where
  opens : calls[opening]? = some .enterFrame
  closes : calls[closing]? = some .exitFrame
  before : opening < closing
  inside : ∀ n, opening < n → n ≤ closing → depthAt calls opening < depthAt calls n
  after : depthAt calls (closing + 1) = depthAt calls opening

namespace Bracket

variable {calls : List Call} {opening closing opening' closing' : Nat}

theorem mem_closings (h : Bracket calls opening closing) : closing ∈ closings calls := by
  refine List.mem_filter.mpr ⟨List.mem_range.mpr (List.getElem?_eq_some_iff.mp h.closes).1, ?_⟩
  rw [h.closes]
  exact decide_eq_true ((Nat.zero_le _).trans_lt (h.inside closing h.before le_rfl))

/-- A bracket that is opened inside another one is closed inside it. -/
theorem nested (outer : Bracket calls opening closing) (inner : Bracket calls opening' closing')
    (hlow : opening < opening') (hhigh : opening' < closing) :
    closing' < closing ∧ depthAt calls opening < depthAt calls opening' := by
  have hdepth := outer.inside opening' hlow hhigh.le
  have houter := outer.after
  have hinner := inner.after
  refine ⟨?_, hdepth⟩
  rcases Nat.lt_trichotomy closing' closing with hlt | rfl | hlt
  · exact hlt
  · omega
  · have := inner.inside (closing + 1) (by omega) hlt
    omega

/-- Of two brackets of one depth, one is closed before the other is opened. -/
theorem apart (h : Bracket calls opening closing)
    (hdepth : depthAt calls opening = depthAt calls opening') (hlt : opening < opening') :
    closing < opening' := by
  by_contra hnot
  have := h.inside opening' hlt (by omega)
  omega

theorem opening_unique (h : Bracket calls opening closing) (h' : Bracket calls opening' closing) :
    opening = opening' := by
  have hdepth := h.after.symm.trans h'.after
  rcases Nat.lt_trichotomy opening opening' with hlt | heq | hlt
  · exact absurd (h.apart hdepth hlt) (by have := h'.before; omega)
  · exact heq
  · exact absurd (h'.apart hdepth.symm hlt) (by have := h.before; omega)

theorem closing_unique (h : Bracket calls opening closing) (h' : Bracket calls opening closing') :
    ¬ closing < closing' := by
  intro hlt
  have := h'.inside (closing + 1) (by have := h.before; omega) hlt
  have := h.after
  omega

end Bracket

section Concat

variable {calls : List Call} (call : Call) {n opening closing : Nat}

theorem depthAt_append (rest : List Call) (h : n ≤ calls.length) :
    depthAt (calls ++ rest) n = depthAt calls n := by
  rw [depthAt, depthAt, List.take_append_of_le_length h]

theorem depthAt_concat (calls : List Call) : depthAt (calls ++ [call]) (calls ++ [call]).length =
    call.depth (depthAt calls calls.length) := by
  rw [depthAt, depthAt, List.take_length, List.take_length, List.foldl_append]
  rfl

theorem Bracket.append (h : Bracket calls opening closing) (rest : List Call) :
    Bracket (calls ++ rest) opening closing := by
  have hlt := (List.getElem?_eq_some_iff.mp h.closes).1
  have hbefore := h.before
  have hdepth (n : Nat) (hn : n ≤ closing + 1) := depthAt_append rest (hn.trans hlt)
  refine ⟨?_, ?_, hbefore, fun n hlow hhigh => ?_, ?_⟩
  · rw [List.getElem?_append_left (by omega), h.opens]
  · rw [List.getElem?_append_left hlt, h.closes]
  · rw [hdepth n (by omega), hdepth opening (by omega)]
    exact h.inside n hlow hhigh
  · rw [hdepth _ le_rfl, hdepth opening (by omega), h.after]

theorem closings_concat : closings (calls ++ [call]) = closings calls ++
    if call.closesFrame && 0 < depthAt calls calls.length then [calls.length] else [] := by
  rw [closings, closings, List.length_append, List.length_singleton, List.range_succ,
    List.filter_append]
  congr 1
  · refine List.filter_congr fun n hn => ?_
    have hlt := List.mem_range.mp hn
    rw [List.getElem?_append_left hlt, depthAt_append _ hlt.le]
  · simp [depthAt_append, List.filter_singleton]

end Concat

/-- One frame lies in another one, which is of smaller depth. -/
def Frame.Encloses (outer inner : Frame) : Prop :=
  outer.depth < inner.depth ∧ outer.start ≤ inner.start ∧ inner.stop ≤ outer.stop

namespace Assembler

variable (pool : Pool) (calls : List Call)

/-- The offset that the first `n` calls lead to. -/
def offsetAfter (n : Nat) : Nat := ((new pool).runAll (calls.take n)).offset

/-- The frame of a bracket. -/
def bracketFrame (bracket : Nat × Nat) : Frame :=
  ⟨offsetAfter pool calls bracket.1, offsetAfter pool calls bracket.2, depthAt calls bracket.1⟩

theorem runAll_concat (call : Call) :
    (new pool).runAll (calls ++ [call]) = call.run ((new pool).runAll calls) :=
  List.foldl_append

theorem offsetAfter_mono {m n : Nat} (h : m ≤ n) :
    offsetAfter pool calls m ≤ offsetAfter pool calls n := by
  induction n, h using Nat.le_induction with
  | base => exact le_rfl
  | succ n _ ih =>
    refine ih.trans ?_
    rw [offsetAfter, offsetAfter, List.take_add_one]
    cases calls[n]? with
    | none => simp
    | some call =>
      rw [Option.toList_some, runAll_concat]
      exact call.offset_le_run _

/-- A bracket is open that was opened inside `depth` others. -/
def OpenAt (opening depth : Nat) : Prop :=
  calls[opening]? = some .enterFrame ∧ depthAt calls opening = depth ∧
    ∀ n, opening < n → n ≤ calls.length → depth < depthAt calls n

/-- The opening calls whose brackets are open, the innermost first, and the brackets
that are closed, in the order of their closing calls. -/
structure Pairing (opened : List Nat) (closed : List (Nat × Nat)) : Prop where
  openFrames : ((new pool).runAll calls).openFrames = opened.map (offsetAfter pool calls)
  frames : ((new pool).runAll calls).frames.toList = closed.map (bracketFrame pool calls)
  depth : depthAt calls calls.length = opened.length
  opens : ∀ opening rest, opening :: rest <:+ opened → OpenAt calls opening rest.length
  brackets : ∀ bracket ∈ closed, Bracket calls bracket.1 bracket.2
  closings : closed.map Prod.snd = closings calls

variable {pool calls} {opening depth : Nat} {call : Call}

theorem OpenAt.lt_length (h : OpenAt calls opening depth) : opening < calls.length :=
  (List.getElem?_eq_some_iff.mp h.1).1

/-- A bracket stays open as long as the depth is larger. -/
theorem OpenAt.concat (h : OpenAt calls opening depth)
    (hdepth : depth < call.depth (depthAt calls calls.length)) :
    OpenAt (calls ++ [call]) opening depth := by
  have hlt := h.lt_length
  obtain ⟨hopens, hat, hinside⟩ := h
  refine ⟨by rwa [List.getElem?_append_left hlt], by rwa [depthAt_append _ hlt.le], ?_⟩
  intro n hlow hhigh
  rcases Nat.lt_or_eq_of_le hhigh with hle | rfl
  · rw [List.length_append, List.length_singleton, Nat.lt_succ_iff] at hle
    rw [depthAt_append _ hle]
    exact hinside n hlow hle
  · rwa [depthAt_concat]

/-- Only the calls for brackets concern brackets. -/
theorem run_other (henter : call ≠ .enterFrame) (hexit : call ≠ .exitFrame)
    (asm : Assembler) (depth : Nat) : (call.run asm).openFrames = asm.openFrames ∧
      (call.run asm).frames = asm.frames ∧ call.depth depth = depth := by
  have hdepth : call.depth depth = depth := by
    unfold Call.depth
    split
    · exact absurd rfl henter
    · exact absurd rfl hexit
    · rfl
  cases hinstr : call.instruction? asm.pool with
  | some emission =>
    have hlayout := Call.layout_run hinstr
    exact ⟨congrArg (·.2.2.1) hlayout, congrArg (·.2.2.2) hlayout, hdepth⟩
  | none =>
    cases Call.silent_of_instruction? hinstr with
    | enterFrame => exact absurd rfl henter
    | exitFrame => exact absurd rfl hexit
    | _ => exact ⟨rfl, rfl, hdepth⟩

namespace Pairing

variable {opened : List Nat} {closed : List (Nat × Nat)} (h : Pairing pool calls opened closed)

include h

/-- What one call has to add. -/
theorem concat {opened' : List Nat} {added : List (Nat × Nat)}
    (hopen : (call.run ((new pool).runAll calls)).openFrames =
      opened'.map (offsetAfter pool (calls ++ [call])))
    (hframes : (call.run ((new pool).runAll calls)).frames.toList =
      ((new pool).runAll calls).frames.toList ++ added.map (bracketFrame pool (calls ++ [call])))
    (hdepth : call.depth opened.length = opened'.length)
    (hopens : ∀ opening rest, opening :: rest <:+ opened' →
      OpenAt (calls ++ [call]) opening rest.length)
    (hbrackets : ∀ bracket ∈ added, Bracket (calls ++ [call]) bracket.1 bracket.2)
    (hclosings : added.map Prod.snd =
      if call.closesFrame && 0 < opened.length then [calls.length] else []) :
    Pairing pool (calls ++ [call]) opened' (closed ++ added) where
  openFrames := by rw [runAll_concat, hopen]
  frames := by
    rw [runAll_concat, hframes, h.frames, List.map_append]
    refine congrArg (· ++ _) (List.map_congr_left fun bracket hmem => ?_)
    have hbracket := h.brackets bracket hmem
    have hlt := (List.getElem?_eq_some_iff.mp hbracket.closes).1
    have hbefore := hbracket.before
    rw [bracketFrame, bracketFrame, offsetAfter, offsetAfter, offsetAfter, offsetAfter,
      List.take_append_of_le_length (by omega), List.take_append_of_le_length (by omega),
      depthAt_append _ (by omega)]
  depth := by rw [depthAt_concat, h.depth, hdepth]
  opens := hopens
  brackets := by
    intro bracket hmem
    rcases List.mem_append.mp hmem with hmem | hmem
    · exact (h.brackets bracket hmem).append _
    · exact hbrackets bracket hmem
  closings := by rw [List.map_append, h.closings, hclosings, closings_concat, h.depth]

theorem offsets_concat (call : Call) :
    opened.map (offsetAfter pool (calls ++ [call])) = opened.map (offsetAfter pool calls) := by
  refine List.map_congr_left fun opening hmem => ?_
  obtain ⟨before, after, rfl⟩ := List.append_of_mem hmem
  have hlt := (h.opens opening after (List.suffix_append _ _)).lt_length
  rw [offsetAfter, offsetAfter, List.take_append_of_le_length hlt.le]

theorem enter : Pairing pool (calls ++ [.enterFrame]) (calls.length :: opened) (closed ++ []) := by
  refine h.concat ?_ (List.append_nil _).symm rfl (fun opening rest hsuffix => ?_)
    (List.forall_mem_nil _) rfl
  · change _ :: ((new pool).runAll calls).openFrames = _
    rw [h.openFrames, List.map_cons, h.offsets_concat, offsetAfter, List.take_left]
  · rcases List.suffix_cons_iff.mp hsuffix with hnew | hold
    · obtain ⟨rfl, rfl⟩ := List.cons.inj hnew
      refine ⟨by simp, by rw [depthAt_append _ le_rfl, h.depth], fun n hlow hhigh => ?_⟩
      obtain rfl : n = (calls ++ [Call.enterFrame]).length := by
        rw [List.length_append, List.length_singleton] at hhigh ⊢
        omega
      rw [depthAt_concat, h.depth]
      exact Nat.lt_succ_self _
    · have hlength := hold.length_le
      rw [List.length_cons, ← h.depth] at hlength
      exact (h.opens _ _ hold).concat (Nat.lt_succ_of_lt hlength)

theorem exit_none (hnone : opened = []) :
    Pairing pool (calls ++ [.exitFrame]) [] (closed ++ []) := by
  subst hnone
  have hopen : ((new pool).runAll calls).openFrames = [] := h.openFrames
  have hrun : Call.exitFrame.run ((new pool).runAll calls) = (new pool).runAll calls := by
    rw [Call.run, exitFrame, hopen]
  exact h.concat (by rw [hrun, hopen]; rfl) (by rw [hrun]; exact (List.append_nil _).symm) rfl
    (fun opening rest hsuffix => by simp at hsuffix) (List.forall_mem_nil _) rfl

theorem other (henter : call ≠ .enterFrame) (hexit : call ≠ .exitFrame) :
    Pairing pool (calls ++ [call]) opened (closed ++ []) := by
  obtain ⟨hopen, hframes, hdepth⟩ := run_other henter hexit ((new pool).runAll calls) opened.length
  refine h.concat (by rw [hopen, h.openFrames, h.offsets_concat])
    (by rw [hframes]; exact (List.append_nil _).symm) hdepth (fun opening rest hsuffix => ?_)
    (List.forall_mem_nil _) (by rw [Bool.eq_false_iff.mpr (mt Call.closesFrame_iff.mp hexit)]; rfl)
  exact (h.opens _ _ hsuffix).concat (by rw [h.depth, hdepth]; exact hsuffix.length_le)

/-- The innermost open bracket is closed. -/
theorem exit {rest : List Nat} (hopened : opened = opening :: rest) :
    Pairing pool (calls ++ [.exitFrame]) rest (closed ++ [(opening, calls.length)]) := by
  subst hopened
  have hopenFrames := h.openFrames
  have hinnermost := h.opens opening rest List.suffix_rfl
  have hlt := hinnermost.lt_length
  obtain ⟨hopens, hlength, hinside⟩ := hinnermost
  have hframe : bracketFrame pool (calls ++ [.exitFrame]) (opening, calls.length) =
      ⟨offsetAfter pool calls opening, ((new pool).runAll calls).offset, rest.length⟩ := by
    rw [bracketFrame, offsetAfter, offsetAfter, List.take_append_of_le_length hlt.le,
      List.take_left, depthAt_append _ hlt.le, hlength]
    rfl
  have hrun : Call.exitFrame.run ((new pool).runAll calls) = { (new pool).runAll calls with
      openFrames := rest.map (offsetAfter pool calls)
      frames := ((new pool).runAll calls).frames.push
        (bracketFrame pool (calls ++ [.exitFrame]) (opening, calls.length)) } := by
    rw [Call.run, exitFrame, hopenFrames, hframe]
    simp
  refine h.concat ?_ (by rw [hrun, Array.toList_push]; rfl) rfl (fun other tail hsuffix => ?_)
    (List.forall_mem_singleton.mpr ?_) rfl
  · rw [hrun]
    exact (List.cons.inj (h.offsets_concat .exitFrame)).2.symm
  · have htail := hsuffix.length_le
    refine (h.opens _ _ (hsuffix.trans (List.suffix_cons _ _))).concat ?_
    rw [h.depth]
    exact htail
  · refine ⟨by rwa [List.getElem?_append_left hlt], by simp, hlt, fun n hlow hhigh => ?_, ?_⟩
    · rw [depthAt_append _ hlt.le, hlength, depthAt_append _ hhigh]
      exact hinside n hlow hhigh
    · have hconcat := depthAt_concat .exitFrame calls
      rw [h.depth, List.length_append] at hconcat
      rw [depthAt_append _ hlt.le, hlength]
      exact hconcat

end Pairing

/-- The brackets after any calls. -/
theorem exists_pairing (pool : Pool) (calls : List Call) :
    ∃ opened closed, Pairing pool calls opened closed := by
  induction calls using List.reverseRecOn with
  | nil =>
    refine ⟨[], [], rfl, rfl, rfl, fun opening rest hsuffix => ?_, List.forall_mem_nil _, rfl⟩
    simp at hsuffix
  | append_singleton calls call ih =>
    obtain ⟨opened, closed, h⟩ := ih
    by_cases henter : call = .enterFrame
    · exact ⟨_, _, henter ▸ h.enter⟩
    by_cases hexit : call = .exitFrame
    · cases hopened : opened with
      | nil => exact ⟨_, _, hexit ▸ h.exit_none hopened⟩
      | cons opening rest => exact ⟨_, _, hexit ▸ h.exit hopened⟩
    · exact ⟨_, _, h.other henter hexit⟩

theorem pairwise_precedes (frames : List Frame) : (sortBy Frame.precedes frames).Pairwise
    fun a b => a.start < b.start ∨ a.start = b.start ∧ a.depth ≤ b.depth := by
  have hprecedes (a b : Frame) : a.precedes b = true ↔
      a.start < b.start ∨ a.start = b.start ∧ a.depth ≤ b.depth := by
    simp [Frame.precedes]
  have htotal : Std.Total fun a b : Frame => a.precedes b = true :=
    ⟨fun a b => by simp only [hprecedes]; omega⟩
  have htrans : IsTrans Frame fun a b => a.precedes b = true :=
    ⟨fun a b c => by simp only [hprecedes]; omega⟩
  simpa only [← hprecedes, sortBy_eq_insertionSort] using List.pairwise_insertionSort
    (fun a b : Frame => a.precedes b = true) frames

/-- The brackets in the order of their sorted frames. -/
theorem exists_brackets (pool : Pool) (calls : List Call) : ∃ brackets : List (Nat × Nat),
    sortBy Frame.precedes ((new pool).runAll calls).frames.toList =
        brackets.map (bracketFrame pool calls) ∧ brackets.Nodup ∧
      (∀ bracket, bracket ∈ brackets ↔ Bracket calls bracket.1 bracket.2) ∧
      brackets.length = (closings calls).length := by
  obtain ⟨opened, closed, h⟩ := exists_pairing pool calls
  have hperm := List.perm_insertionSort
    (fun a b => (bracketFrame pool calls a).precedes (bracketFrame pool calls b) = true) closed
  refine ⟨_, ?_, hperm.nodup_iff.mpr ?_, fun bracket => hperm.mem_iff.trans ⟨h.brackets bracket, ?_⟩,
    ?_⟩
  · rw [h.frames, sortBy_eq_insertionSort]
    symm
    apply List.map_insertionSort
    exact fun _ _ _ _ => Iff.rfl
  · apply List.Nodup.of_map Prod.snd
    rw [h.closings]
    exact List.nodup_range.filter _
  · intro hbracket
    have hclosing := hbracket.mem_closings
    rw [← h.closings, List.mem_map] at hclosing
    obtain ⟨found, hfound, heq⟩ := hclosing
    have hsame := h.brackets found hfound
    rw [heq] at hsame
    rwa [← Prod.ext (hsame.opening_unique hbracket) heq]
  · rw [hperm.length_eq, ← h.closings, List.length_map]

/-- The frames of finished code are the brackets of the calls, sorted by start and
depth, one for each closing call that found an open bracket. Frames of one depth do
not overlap, and a bracket that is opened inside another one lies in it and behind it
in the list. -/
theorem finish_frames (pool : Pool) (calls : List Call) {code : Code}
    (h : ((new pool).runAll calls).finish = .ok code) :
    ∃ brackets : List (Nat × Nat),
      code.frames = brackets.map (bracketFrame pool calls) ∧ brackets.Nodup ∧
      (∀ bracket, bracket ∈ brackets ↔ Bracket calls bracket.1 bracket.2) ∧
      code.frames.length = (closings calls).length ∧
      (code.frames.Pairwise fun a b => a.start < b.start ∨ a.start = b.start ∧ a.depth ≤ b.depth) ∧
      (code.frames.Pairwise fun a b => a.depth = b.depth → a.stop ≤ b.start ∨ b.stop ≤ a.start) ∧
      ∀ (i j : Nat) outer inner, brackets[i]? = some outer → brackets[j]? = some inner →
        outer.1 < inner.1 → inner.1 < outer.2 →
          i < j ∧ (bracketFrame pool calls outer).Encloses (bracketFrame pool calls inner) := by
  obtain ⟨_, _, _, _, _, rfl⟩ := finish_eq_ok.mp h
  dsimp only
  have hsorted := pairwise_precedes ((new pool).runAll calls).frames.toList
  obtain ⟨brackets, hframes, hnodup, hmem, hlength⟩ := exists_brackets pool calls
  rw [hframes] at hsorted ⊢
  refine ⟨brackets, rfl, hnodup, hmem, by rw [List.length_map, hlength], hsorted, ?_,
    fun i j outer inner hi hj hlow hhigh => ?_⟩
  · rw [List.pairwise_map]
    refine hnodup.pairwise_of_forall_ne fun a ha b hb hne hdepth => ?_
    have ha := (hmem a).mp ha
    have hb := (hmem b).mp hb
    rcases Nat.lt_trichotomy a.1 b.1 with hlt | heq | hlt
    · exact .inl (offsetAfter_mono pool calls (ha.apart hdepth hlt).le)
    · rw [← heq] at hb
      have hclosing : a.2 = b.2 :=
        Nat.le_antisymm (Nat.not_lt.mp (hb.closing_unique ha)) (Nat.not_lt.mp (ha.closing_unique hb))
      exact absurd (Prod.ext heq hclosing) hne
    · exact .inr (offsetAfter_mono pool calls (hb.apart hdepth.symm hlt).le)
  · have houter := (hmem outer).mp (List.mem_of_getElem? hi)
    obtain ⟨hclosing, hdepth⟩ := houter.nested ((hmem inner).mp (List.mem_of_getElem? hj)) hlow hhigh
    have hencloses : (bracketFrame pool calls outer).Encloses (bracketFrame pool calls inner) :=
      ⟨hdepth, offsetAfter_mono pool calls hlow.le, offsetAfter_mono pool calls hclosing.le⟩
    refine ⟨?_, hencloses⟩
    obtain ⟨hi, hat⟩ := List.getElem?_eq_some_iff.mp hi
    obtain ⟨hj, hat'⟩ := List.getElem?_eq_some_iff.mp hj
    rcases Nat.lt_trichotomy i j with hlt | rfl | hlt
    · exact hlt
    · rw [← hat, ← hat'] at hlow
      exact absurd hlow (lt_irrefl _)
    · have := List.pairwise_iff_getElem.mp (List.pairwise_map.mp hsorted) j i hj hi hlt
      rw [hat, hat'] at this
      obtain ⟨hdeeper, hstart, _⟩ := hencloses
      omega

/-- A closing call too many, brackets of one start, and one that stays open. -/
theorem finish_frames_unbalanced :
    let calls : List Call := [.exitFrame, .enterFrame, .enterFrame, .op .pushTrue, .exitFrame,
      .exitFrame, .enterFrame, .op .returnVoid]
    ∃ code, ((new .empty).runAll calls).finish = .ok code ∧
      code.frames = [⟨0, 1, 0⟩, ⟨0, 1, 1⟩] ∧ code.frames.length = (closings calls).length := by
  intro calls
  obtain ⟨code, hfinish, hframes⟩ : ∃ code, ((new .empty).runAll calls).finish = .ok code ∧
    code.frames = [⟨0, 1, 0⟩, ⟨0, 1, 1⟩] := ⟨_, rfl, rfl⟩
  obtain ⟨_, _, _, _, hlength, _⟩ := finish_frames .empty calls hfinish
  exact ⟨code, hfinish, hframes, hlength⟩

end Assembler

end StackLowering
