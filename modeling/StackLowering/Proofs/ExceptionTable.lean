import StackLowering.Proofs.CleanupCopies
/-!
Tables of exceptions whose ranges are nested. Inner ranges come before the ones
around them, and of the entries for one range those that catch a type come before
the one that catches everything. So the first entry that covers an instruction has
the smallest range around it. The table of a region is put together from the
entries of its code, of its clauses and of its cleanup.
-/

namespace StackLowering

/-- The entry of a region when its labels lie at these positions. -/
def Region.entry (position : Label → Nat) (region : Region) : ExceptionEntry :=
  ⟨position region.start, position region.stop, position region.handler, region.catches⟩

namespace ExceptionEntry

/-- An entry for all exceptions raised in a range. -/
def catchAll (handler : Nat) (range : Nat × Nat) : ExceptionEntry :=
  ⟨range.1, range.2, handler, none⟩

/-- The entry is for exactly this range. -/
def spans (start stop : Nat) (entry : ExceptionEntry) : Bool :=
  entry.start == start && entry.stop == stop

/-- Where both entries protect an instruction, the range of the first one lies in
the range of the second one. Of two entries for the same range, the first one does
not catch everything. -/
def Precedes (first second : ExceptionEntry) : Prop :=
  ∀ offset, first.covers offset = true → second.covers offset = true →
    (second.start ≤ first.start ∧ first.stop ≤ second.stop) ∧
      (first.start = second.start → first.stop = second.stop → first.catches ≠ none)

variable {first second entry : ExceptionEntry} {low mid high offset : Nat}
  {entries others : List ExceptionEntry}

theorem covers_iff : entry.covers offset = true ↔ entry.start ≤ offset ∧ offset < entry.stop := by
  simp [covers]

theorem spans_iff {start stop : Nat} :
    entry.spans start stop = true ↔ entry.start = start ∧ entry.stop = stop := by
  simp [spans]

theorem filter_spans_eq_nil {start stop : Nat}
    (h : ∀ entry ∈ entries, entry.start = start → entry.stop ≠ stop) :
    entries.filter (spans start stop) = [] := by
  rw [List.filter_eq_nil_iff]
  intro entry hmem hspans
  obtain ⟨hstart, hstop⟩ := spans_iff.mp hspans
  exact h entry hmem hstart hstop

theorem precedes_of_apart (h : first.stop ≤ second.start ∨ second.stop ≤ first.start) :
    first.Precedes second := by
  intro offset hfirst hsecond
  rw [covers_iff] at hfirst hsecond
  omega

theorem precedes_of_inside (hstart : second.start ≤ first.start)
    (hstop : first.stop < second.stop) : first.Precedes second :=
  fun _ _ _ => ⟨⟨hstart, hstop.le⟩, fun _ heq => absurd heq hstop.ne⟩

theorem precedes_of_typed (hstart : first.start = second.start) (hstop : first.stop = second.stop)
    (htyped : first.catches ≠ none) : first.Precedes second :=
  fun _ _ _ => ⟨⟨hstart.ge, hstop.le⟩, fun _ _ => htyped⟩

/-- Among entries in this order, the first one that covers an instruction has the
smallest range of all that do. -/
theorem smallest_of_find? (h : entries.Pairwise Precedes)
    (hfind : entries.find? (·.covers offset) = some entry) :
    ∀ other ∈ entries, other.covers offset = true →
      other.start ≤ entry.start ∧ entry.stop ≤ other.stop := by
  obtain ⟨hcovers, before, after, rfl, hbefore⟩ := List.find?_eq_some_iff_append.mp hfind
  have hafter := (List.pairwise_cons.mp (List.pairwise_append.mp h).2.1).1
  intro other hmem hother
  rcases List.mem_append.mp hmem with hmem | hmem
  · have hnot := hbefore other hmem
    rw [hother] at hnot
    cases hnot
  · rcases List.mem_cons.mp hmem with rfl | hmem
    · exact ⟨le_rfl, le_rfl⟩
    · exact (hafter other hmem offset hcovers hother).1

/-- Entries for code between two offsets. Each handler stands behind the range it
is for, and inner ranges come before the ones around them. -/
structure Layered (low high : Nat) (entries : List ExceptionEntry) : Prop where
  bounds : ∀ entry ∈ entries, low ≤ entry.start ∧ entry.start ≤ entry.stop ∧
    entry.stop < entry.handler ∧ entry.handler ≤ high
  ordered : entries.Pairwise Precedes

namespace Layered

theorem nil (low high : Nat) : Layered low high [] := ⟨List.forall_mem_nil _, .nil⟩

theorem mono {low' high' : Nat} (h : Layered low high entries) (hlow : low' ≤ low)
    (hhigh : high ≤ high') : Layered low' high' entries := by
  refine ⟨fun entry hmem => ?_, h.ordered⟩
  have hbounds := h.bounds entry hmem
  omega

theorem append (h : Layered low mid entries) (h' : Layered mid high others) (hlow : low ≤ mid)
    (hhigh : mid ≤ high) : Layered low high (entries ++ others) := by
  refine ⟨List.forall_mem_append.mpr ⟨(h.mono le_rfl hhigh).bounds, (h'.mono hlow le_rfl).bounds⟩,
    List.pairwise_append.mpr ⟨h.ordered, h'.ordered, fun first hfirst second hsecond => ?_⟩⟩
  have hbefore := h.bounds first hfirst
  have hbehind := h'.bounds second hsecond
  exact precedes_of_apart (.inl (by omega))

theorem around (h : Layered low high entries) (h' : Layered low high others)
    (hinside : ∀ inner ∈ entries, ∀ outer ∈ others, inner.Precedes outer) :
    Layered low high (entries ++ others) :=
  ⟨List.forall_mem_append.mpr ⟨h.bounds, h'.bounds⟩,
    List.pairwise_append.mpr ⟨h.ordered, h'.ordered, hinside⟩⟩

end Layered

/-- The entries of a region around the code from `start` to `stop`, up to some clause
that ends before `high`. The clauses catch `types`, and `bodies` are the ranges of what
they do. -/
structure Guarded (start stop high : Nat) (types : List Ty) (bodies : List (Nat × Nat))
    (entries : List ExceptionEntry) : Prop where
  layered : Layered start high entries
  placed : ∀ body ∈ (start, stop) :: bodies, start ≤ body.1 ∧ body.1 ≤ body.2 ∧ body.2 < high
  apart : ((start, stop) :: bodies).Pairwise fun first second => first.2 ≤ second.1
  inside : ∀ entry ∈ entries, ∀ body ∈ (start, stop) :: bodies, ∀ handler catches,
    entry.Precedes ⟨body.1, body.2, handler, catches⟩
  own : start < stop →
    (entries.filter (spans start stop)).map catches = types.map (some ·.digest)

namespace Guarded

variable {start stop : Nat} {types : List Ty} {bodies : List (Nat × Nat)}
  {inner copy : List ExceptionEntry}

theorem inside_code (hinner : Layered low mid inner) (hcopy : Layered mid high copy) :
    ∀ entry ∈ inner ++ copy, ∀ handler catches, entry.Precedes ⟨low, mid, handler, catches⟩ := by
  refine List.forall_mem_append.mpr ⟨fun entry hmem _ _ => ?_, fun entry hmem _ _ => ?_⟩
  · have hbounds := hinner.bounds entry hmem
    exact precedes_of_inside hbounds.1 (hbounds.2.2.1.trans_le hbounds.2.2.2)
  · exact precedes_of_apart (.inr (hcopy.bounds entry hmem).1)

/-- The region before its clauses. -/
theorem body (hinner : Layered start stop inner) (hcopy : Layered stop high copy)
    (hrange : start ≤ stop) (hhigh : stop < high) :
    Guarded start stop high [] [] (inner ++ copy) where
  layered := hinner.append hcopy hrange hhigh.le
  placed := List.forall_mem_singleton.mpr ⟨le_rfl, hrange, hhigh⟩
  apart := List.pairwise_singleton _ _
  inside := fun entry hmem => List.forall_mem_singleton.mpr (inside_code hinner hcopy entry hmem)
  own := fun hlt => by
    have hnone : (inner ++ copy).filter (spans start stop) = [] := by
      refine filter_spans_eq_nil (List.forall_mem_append.mpr ⟨?_, ?_⟩)
      · intro entry hmem
        have hbounds := hinner.bounds entry hmem
        omega
      · intro entry hmem
        have hbounds := hcopy.bounds entry hmem
        omega
    rw [hnone]
    rfl

section Clause

variable (h : Guarded start stop low types bodies entries)

include h

theorem start_le_stop : start ≤ stop := (List.forall_mem_cons.mp h.placed).1.2.1

theorem stop_lt : stop < low := (List.forall_mem_cons.mp h.placed).1.2.2

theorem clause_precedes (digest : Digest) : ∀ body ∈ (start, stop) :: bodies, ∀ handler catches,
    Precedes ⟨start, stop, low, some digest⟩ ⟨body.1, body.2, handler, catches⟩ := by
  refine List.forall_mem_cons.mpr ⟨fun _ _ => ?_, fun body hbody _ _ => ?_⟩
  · exact precedes_of_typed rfl rfl (Option.some_ne_none _)
  · exact precedes_of_apart (.inl ((List.pairwise_cons.mp h.apart).1 body hbody))

theorem filter_behind (hinner : Layered low high inner) : inner.filter (spans start stop) = [] := by
  refine filter_spans_eq_nil fun entry hmem hstart => ?_
  have hbounds := hinner.bounds entry hmem
  have hstop := h.stop_lt
  have hrange := h.start_le_stop
  omega

/-- A further clause. Its handler starts at `low`, what it does ends at `mid`, and a
copy of the cleanup stands behind it. -/
theorem clause (ty : Ty) (hinner : Layered low mid inner) (hcopy : Layered mid high copy)
    (hmid : low ≤ mid) (hhigh : mid < high) :
    Guarded start stop high (types ++ [ty]) (bodies ++ [(low, mid)])
      (entries ++ [⟨start, stop, low, some ty.digest⟩] ++ (inner ++ copy)) := by
  have hcode := hinner.append hcopy hmid hhigh.le
  have hrange := h.start_le_stop
  have hstop := h.stop_lt
  constructor
  case layered =>
    have hhandler : Layered start low [⟨start, stop, low, some ty.digest⟩] :=
      ⟨List.forall_mem_singleton.mpr ⟨le_rfl, hrange, hstop, le_rfl⟩, List.pairwise_singleton _ _⟩
    refine (h.layered.around hhandler fun entry hmem => ?_).append hcode (by omega) (by omega)
    exact List.forall_mem_singleton.mpr (h.inside entry hmem _ List.mem_cons_self _ _)
  case placed =>
    rw [← List.cons_append]
    refine List.forall_mem_append.mpr ⟨fun body hmem => ?_, List.forall_mem_singleton.mpr ?_⟩
    · have hplaced := h.placed body hmem
      omega
    · exact ⟨by omega, hmid, hhigh⟩
  case apart =>
    rw [← List.cons_append]
    refine List.pairwise_append.mpr ⟨h.apart, List.pairwise_singleton _ _, fun body hmem => ?_⟩
    exact List.forall_mem_singleton.mpr (h.placed body hmem).2.2.le
  case inside =>
    rw [← List.cons_append]
    refine List.forall_mem_append.mpr ⟨List.forall_mem_append.mpr ⟨fun entry hmem => ?_,
      List.forall_mem_singleton.mpr ?_⟩, fun entry hmem => ?_⟩
    all_goals refine List.forall_mem_append.mpr ⟨?_, List.forall_mem_singleton.mpr ?_⟩
    · exact h.inside entry hmem
    · have hbounds := h.layered.bounds entry hmem
      exact fun _ _ => precedes_of_apart (.inl (by simp only; omega))
    · exact h.clause_precedes ty.digest
    · exact fun _ _ => precedes_of_apart (.inl hstop.le)
    · intro body hbody _ _
      have hplaced := (h.placed body hbody).2.2
      exact precedes_of_apart (.inr (hplaced.le.trans (hcode.bounds entry hmem).1))
    · exact inside_code hinner hcopy entry hmem
  case own =>
    intro hlt
    have hself : [⟨start, stop, low, some ty.digest⟩].filter (spans start stop) =
        [⟨start, stop, low, some ty.digest⟩] :=
      List.filter_cons_of_pos (spans_iff.mpr ⟨rfl, rfl⟩)
    rw [List.filter_append, List.filter_append, hself, h.filter_behind hcode, List.append_nil,
      List.map_append, h.own hlt, List.map_append]
    rfl

/-- The handler of all exceptions starts at `low`. -/
theorem layered_catchAll (hlast : Layered low high copy) (hhigh : low ≤ high) :
    Layered start high (entries ++ ((start, stop) :: bodies).map (catchAll low) ++ copy) := by
  have hhandlers : Layered start low (((start, stop) :: bodies).map (catchAll low)) := by
    refine ⟨List.forall_mem_map.mpr fun body hmem => ?_, List.pairwise_map.mpr ?_⟩
    · obtain ⟨hstart, hrange, hstop⟩ := h.placed body hmem
      exact ⟨hstart, hrange, hstop, le_rfl⟩
    · exact h.apart.imp fun hapart => precedes_of_apart (.inl hapart)
  have hinside : ∀ inner ∈ entries, ∀ outer ∈ ((start, stop) :: bodies).map (catchAll low),
      inner.Precedes outer :=
    fun entry hmem => List.forall_mem_map.mpr fun body hbody => h.inside entry hmem body hbody _ _
  have hlow : start ≤ low := h.start_le_stop.trans h.stop_lt.le
  exact (h.layered.around hhandlers hinside).append hlast hlow hhigh

/-- The entry for all exceptions comes after those of the clauses. -/
theorem own_catchAll (hlt : start < stop) (hlast : Layered low high copy) :
    ((entries ++ ((start, stop) :: bodies).map (catchAll low) ++ copy).filter
      (spans start stop)).map catches = types.map (some ·.digest) ++ [none] := by
  have hbodies : (bodies.map (catchAll low)).filter (spans start stop) = [] := by
    refine filter_spans_eq_nil (List.forall_mem_map.mpr fun body hmem hstart => ?_)
    have hapart : stop ≤ body.1 := (List.pairwise_cons.mp h.apart).1 body hmem
    have hbody : body.1 = start := hstart
    omega
  have hself : spans start stop (catchAll low (start, stop)) = true := spans_iff.mpr ⟨rfl, rfl⟩
  rw [List.filter_append, List.filter_append, h.filter_behind hlast, List.append_nil,
    List.map_cons, List.filter_cons_of_pos hself, hbodies, List.map_append, h.own hlt]
  rfl

/-- The region as a whole. Only a cleanup handles all exceptions. -/
theorem complete (cleanup : Bool) (hlast : Layered low high copy) (hhigh : low ≤ high) :
    let handlers := if cleanup then ((start, stop) :: bodies).map (catchAll low) else []
    Layered start high (entries ++ (handlers ++ copy)) ∧
      (start < stop → ((entries ++ (handlers ++ copy)).filter (spans start stop)).map catches =
        types.map (some ·.digest) ++ if cleanup then [none] else []) := by
  intro handlers
  rw [← List.append_assoc]
  cases cleanup with
  | true => exact ⟨h.layered_catchAll hlast hhigh, fun hlt => h.own_catchAll hlt hlast⟩
  | false =>
    have hlow : start ≤ low := h.start_le_stop.trans h.stop_lt.le
    have hnone : entries ++ handlers = entries := List.append_nil entries
    rw [hnone]
    refine ⟨h.layered.append hlast hlow hhigh, fun hlt => ?_⟩
    rw [List.filter_append, h.filter_behind hlast, List.append_nil, h.own hlt]
    exact (List.append_nil _).symm

end Clause

end Guarded

end ExceptionEntry

/-- The table of finished code is in order, without empty ranges. -/
structure Code.Nested (code : Code) : Prop where
  bounds : ∀ entry ∈ code.exceptions, entry.start < entry.stop ∧ entry.stop ≤ entry.handler
  ordered : code.exceptions.Pairwise ExceptionEntry.Precedes

variable {asm : Assembler}

theorem Assembler.positionOf_eq {label : Label} {position : Nat}
    (h : asm.position? label = some position) : asm.positionOf label = position := by
  rw [positionOf, h]
  rfl

/-- Regions that cover no code have no entry. -/
theorem Assembler.filterMap_of_mapM {regions : List Region} {entries : List (Option ExceptionEntry)}
    (h : regions.mapM asm.resolveRegion = .ok entries) :
    entries.filterMap id = (regions.map (Region.entry asm.positionOf)).filter
      fun entry => entry.start < entry.stop := by
  induction regions generalizing entries with
  | nil =>
    obtain rfl : [] = entries := Except.ok.inj h
    rfl
  | cons region rest ih =>
    simp only [List.mapM_cons, bind_eq_ok] at h
    obtain ⟨first, hfirst, others, hothers, h⟩ := h
    obtain rfl : first :: others = entries := Except.ok.inj h
    obtain ⟨start, stop, handler, hstart, hstop, hhandler, rfl⟩ := resolveRegion_eq_ok.mp hfirst
    have hentry : region.entry asm.positionOf = ⟨start, stop, handler, region.catches⟩ := by
      rw [Region.entry, positionOf_eq hstart, positionOf_eq hstop, positionOf_eq hhandler]
    rw [List.map_cons, hentry, List.filter_cons, List.filterMap_cons, ih hothers]
    by_cases hlt : start < stop <;> simp [hlt]

theorem Assembler.exceptions_eq {code : Code} (h : asm.finish = .ok code) :
    code.exceptions = (asm.regions.toList.map (Region.entry asm.positionOf)).filter
      fun entry => entry.start < entry.stop := by
  obtain ⟨_, chunk, entries, _, hentries, rfl⟩ := finish_eq_ok.mp h
  exact filterMap_of_mapM hentries

end StackLowering
