import StackLowering.Proofs.Dispatch
/-!
Switches over texts. The switch over hash codes that stands for one goes where
the original says: to the first body at or behind the arm with the text, unless
the default comes before it. Texts with the same hash share a bucket, whose
guards tell them apart, and a group of arms may be spread over several buckets.

Statements have an arbitrary meaning over some type of states. What is fixed is
how control passes through blocks, guards and redirections: a guard that fails
goes on at the default where its body ends in a redirection.
-/

namespace StackLowering

/-- How a statement in an arm of a switch ends. -/
inductive ArmExit where
  | normal
  | redirected
  /-- Control leaves the switch. -/
  | left
  /-- Control goes on somewhere else, as after a return. -/
  | away

/-- The meaning of conditions, keys and other statements. A condition or key
without a value raises an exception. -/
structure Meaning (σ : Type) where
  test : Tree → σ → Option Bool × σ
  key : Tree → σ → Option Int32 × σ
  other : Tree → σ → ArmExit × σ

/-- Where control is when the arms in front of the default are done. -/
inductive Landing (σ : Type) where
  | atDefault (x : σ)
  | outside (x : σ)
  | away (x : σ)

/-- A body that ends normally goes on at the default. -/
def Landing.ofExit {σ : Type} : ArmExit × σ → Landing σ
  | (.normal, x) | (.redirected, x) => .atDefault x
  | (.left, x) => .outside x
  | (.away, x) => .away x

namespace Meaning

variable {σ : Type} (m : Meaning σ)

def condition : Tree → σ → Option Bool × σ
  | .literal (.bool value), x => (some value, x)
  | .not operand, x =>
    match condition operand x with
    | (value, y) => (value.map (!·), y)
  | .logical op left right, x =>
    match condition left x with
    | (some value, y) => if value = (op == .or) then (some value, y) else condition right y
    | (none, y) => (none, y)
  | tree, x => m.test tree x

mutual

def perform : Tree → σ → ArmExit × σ
  | .redirect, x => (.redirected, x)
  | .breakTo none, x => (.left, x)
  | .nothing, x => (.normal, x)
  | .block trees, x => performAll trees x
  | .branch condition body otherwise, x =>
    match m.condition condition x with
    | (some true, y) => perform body y
    | (some false, y) =>
      if body.endsWithRedirect then (.redirected, y) else performOption otherwise y
    | (none, y) => (.away, y)
  | tree, x => m.other tree x

def performAll : List Tree → σ → ArmExit × σ
  | [], x => (.normal, x)
  | tree :: rest, x =>
    match perform tree x with
    | (.normal, y) => performAll rest y
    | ended => ended

def performOption : Option Tree → σ → ArmExit × σ
  | none, x => (.normal, x)
  | some tree, x => perform tree x

end

/-- Arms run into the next one, and the last one into the default. -/
def fallThrough : List (Int32 × Tree) → σ → Landing σ
  | [], x => .atDefault x
  | (_, body) :: rest, x =>
    match m.perform body x with
    | (.normal, y) => fallThrough rest y
    | ended => .ofExit ended

/-- A switch over ints on arms in ascending order. -/
def dispatch (subject : Tree) (arms : List (Int32 × Tree)) (x : σ) : Landing σ :=
  match m.key subject x with
  | (some key, y) => m.fallThrough (arms.dropWhile (·.1 ≠ key)) y
  | (none, y) => .away y

end Meaning

namespace Switch

/-- An arm of a switch over texts. -/
structure TextArm where
  text? : Option String
  body : Tree

def textTree (text : String) : Tree := .literal (.text text)

def TextArm.arm (arm : TextArm) : Arm := ⟨arm.text?.map textTree, arm.body⟩

/-- What a switch selects. -/
inductive Selection where
  | body (tree : Tree)
  | default
  | exit

namespace Selection

def land {σ : Type} (m : Meaning σ) : Selection → σ → Landing σ
  | body tree, x => .ofExit (m.perform tree x)
  | default, x => .atDefault x
  | exit, x => .outside x

/-- The body that stands for the selection in front of the default. -/
def body? : Selection → Option Tree
  | body tree => some tree
  | default => none
  | exit => some (.breakTo none)

end Selection

/-- The first body that is not empty, unless the default comes before it. -/
def firstBody : List TextArm → Selection
  | [] => .exit
  | ⟨none, _⟩ :: _ => .default
  | ⟨some _, body⟩ :: rest => if body.isEmpty then firstBody rest else .body body

/-- What a text selects, in the order of the source. -/
def select (text : String) : List TextArm → Selection
  | [] => .default
  | arm :: rest => if arm.text? = some text then firstBody (arm :: rest) else select text rest

/-- The call that compares the subject with a value. -/
def equalsCall (read value : Tree) : Tree :=
  .invoke .virtual Ty.text ⟨"equals", Ty.bool, [Ty.root]⟩ (some read) [value]

def hashCodeCall (read : Tree) : Tree :=
  .invoke .virtual Ty.text ⟨"hashCode", Ty.int, []⟩ (some read) []

/-- The subject is this text, as its methods tell. -/
structure IsText {σ : Type} (m : Meaning σ) (read : Tree) (text : String) (x : σ) : Prop where
  hash : m.key (hashCodeCall read) x = (some (textHash text), x)
  equals : ∀ other, m.test (equalsCall read (textTree other)) x = (some (text == other), x)

/-- Texts that share one body. -/
structure TextGroup where
  texts : List String
  body : Tree

namespace TextGroup

def group (group : TextGroup) : Group := ⟨group.texts.map textTree, group.body⟩

def candidate (group : TextGroup) : Candidate := ⟨group.texts.map textTree, group.body⟩

/-- The part of a group with this hash. -/
def withHash? (hash : Int32) (group : TextGroup) : Option TextGroup :=
  match group.texts.filter (textHash · = hash) with
  | [] => none
  | texts => some ⟨texts, group.body⟩

end TextGroup

section Guards

variable {σ : Type} {m : Meaning σ} {read : Tree} {text : String} {x : σ}

theorem condition_anyEqual (h : IsText m read text x) (texts : List String) :
    m.condition (anyEqual (equalsCall read) (texts.map textTree)) x =
      (some (texts.contains text), x) := by
  have hfold (rest : List String) (left : Tree) (found : Bool)
      (hleft : m.condition left x = (some found, x)) :
      m.condition ((rest.map textTree).foldl
        (fun left value => .logical .or left (equalsCall read value)) left) x =
          (some (found || rest.contains text), x) := by
    induction rest generalizing left found with
    | nil => simpa using hleft
    | cons next rest ih =>
      have hstep : m.condition (.logical .or left (equalsCall read (textTree next))) x =
          (some (found || text == next), x) := by
        rw [Meaning.condition, hleft]
        cases found with
        | true => rfl
        | false => exact h.equals next
      rw [List.map_cons, List.foldl_cons, ih _ _ hstep, List.contains_cons, Bool.or_assoc]
  cases texts with
  | nil => rfl
  | cons first rest =>
    rw [List.map_cons, anyEqual, List.contains_cons]
    exact hfold rest _ _ (h.equals first)

theorem perform_body (body : Tree) (x : σ) :
    Landing.ofExit (m.perform (.block [body, .redirect]) x) = .ofExit (m.perform body x) := by
  rw [Meaning.perform, Meaning.performAll]
  rcases m.perform body x with ⟨_ | _ | _ | _, y⟩ <;> rfl

/-- A chain of guards runs the body of the first candidate with the text, and
goes on at the default if there is none. -/
theorem perform_chain (h : IsText m read text x) (groups : List TextGroup) :
    m.perform (chain (equalsCall read) (groups.map TextGroup.candidate)) x =
      match (groups.find? (·.texts.contains text)).map TextGroup.body with
      | some body => m.perform (.block [body, .redirect]) x
      | none => (.redirected, x) := by
  induction groups with
  | nil =>
    rw [List.map_nil, chain, Meaning.perform]
    rfl
  | cons first rest ih =>
    have htest : m.condition (anyEqual (equalsCall read) first.candidate.values) x =
        (some (first.texts.contains text), x) := condition_anyEqual h first.texts
    cases rest with
    | nil =>
      rw [List.map_singleton, chain, Meaning.perform, htest, List.find?_singleton]
      cases first.texts.contains text with
      | true => rfl
      | false => rfl
    | cons second rest =>
      have hnot : m.condition (.not (anyEqual (equalsCall read) first.candidate.values)) x =
          (some (!first.texts.contains text), x) := by
        rw [Meaning.condition, htest]
        rfl
      -- The body of this guard is a guard again, so it does not end in a redirection.
      have hguard : (chain (equalsCall read)
          ((second :: rest).map TextGroup.candidate)).endsWithRedirect = false := by
        cases rest with
        | nil => rfl
        | cons third rest => rfl
      rw [List.map_cons, List.map_cons, chain, ← List.map_cons, Meaning.perform, hnot,
        List.find?_cons]
      cases first.texts.contains text with
      | true =>
        simp only [Bool.not_true, hguard, Bool.false_eq_true, if_false,
          Meaning.performOption]
        rfl
      | false => exact ih
      · exact List.cons_ne_nil _ _

end Guards

section Buckets

/-- The hashes of buckets are in strictly ascending order. -/
def Ordered (buckets : List Bucket) : Prop :=
  buckets.Pairwise fun bucket next => bucket.hash.toInt < next.hash.toInt

/-- The candidates for a hash. -/
def candidatesAt (buckets : List Bucket) (hash : Int32) : List Candidate :=
  match buckets.find? (·.hash = hash) with
  | some bucket => bucket.candidates
  | none => []

variable {buckets : List Bucket} {hash key : Int32} {candidate : Candidate}

theorem mem_hashes_addCandidate {other : Bucket}
    (h : other ∈ addCandidate buckets hash candidate) :
    other.hash = hash ∨ ∃ bucket ∈ buckets, bucket.hash = other.hash := by
  induction buckets with
  | nil =>
    rw [List.mem_singleton.mp h]
    exact .inl rfl
  | cons bucket rest ih =>
    rw [addCandidate] at h
    split_ifs at h with hsame hless
    · rcases List.mem_cons.mp h with rfl | hmem
      · exact .inl rfl
      · exact .inr ⟨other, List.mem_cons_of_mem _ hmem, rfl⟩
    · rcases List.mem_cons.mp h with rfl | hmem
      · exact .inl rfl
      · exact .inr ⟨other, hmem, rfl⟩
    · rcases List.mem_cons.mp h with rfl | hmem
      · exact .inr ⟨other, List.mem_cons_self, rfl⟩
      · rcases ih hmem with heq | ⟨bucket, hbucket, heq⟩
        · exact .inl heq
        · exact .inr ⟨bucket, List.mem_cons_of_mem _ hbucket, heq⟩

theorem Ordered.addCandidate (h : Ordered buckets) :
    Ordered (addCandidate buckets hash candidate) := by
  induction buckets with
  | nil => exact List.pairwise_singleton _ _
  | cons bucket rest ih =>
    obtain ⟨hfirst, hrest⟩ := List.pairwise_cons.mp h
    rw [Switch.addCandidate]
    split_ifs with hsame hless
    · subst hsame
      exact List.pairwise_cons.mpr ⟨hfirst, hrest⟩
    · apply List.pairwise_cons.mpr
      refine ⟨?_, h⟩
      intro other hother
      rcases List.mem_cons.mp hother with rfl | hmem
      · exact hless
      · exact hless.trans (hfirst other hmem)
    · apply List.pairwise_cons.mpr
      refine ⟨?_, ih hrest⟩
      intro other hother
      rcases mem_hashes_addCandidate hother with heq | ⟨later, hlater, heq⟩
      · have hne : hash.toInt ≠ bucket.hash.toInt := mt Int32.toInt_inj.mp hsame
        rw [heq]
        omega
      · rw [← heq]
        exact hfirst later hlater

theorem candidatesAt_cons (bucket : Bucket) (rest : List Bucket) (key : Int32) :
    candidatesAt (bucket :: rest) key =
      if bucket.hash = key then bucket.candidates else candidatesAt rest key := by
  rw [candidatesAt, List.find?_cons]
  split_ifs with hkey
  · simp [hkey]
  · simp [hkey, candidatesAt]

theorem candidatesAt_eq_nil (h : ∀ bucket ∈ buckets, bucket.hash ≠ key) :
    candidatesAt buckets key = [] := by
  have hnone : buckets.find? (·.hash = key) = none := by
    apply List.find?_eq_none.mpr
    intro bucket hmem
    simpa using h bucket hmem
  rw [candidatesAt, hnone]

theorem candidatesAt_addCandidate (h : Ordered buckets) :
    candidatesAt (addCandidate buckets hash candidate) key =
      candidatesAt buckets key ++ if hash = key then [candidate] else [] := by
  induction buckets with
  | nil =>
    rw [addCandidate, candidatesAt_cons]
    rfl
  | cons bucket rest ih =>
    obtain ⟨hfirst, hrest⟩ := List.pairwise_cons.mp h
    rw [addCandidate, candidatesAt_cons bucket]
    by_cases hsame : hash = bucket.hash
    · rw [if_pos hsame, candidatesAt_cons, hsame]
      split_ifs <;> simp
    · rw [if_neg hsame]
      by_cases hless : hash.toInt < bucket.hash.toInt
      · rw [if_pos hless, candidatesAt_cons, candidatesAt_cons]
        by_cases hkey : hash = key
        · -- All buckets that were there have larger hashes.
          have hnone : candidatesAt rest key = [] := by
            apply candidatesAt_eq_nil
            rintro other hmem rfl
            have hlater := hfirst other hmem
            rw [← hkey] at hlater
            omega
          have hne : bucket.hash ≠ key := fun heq => hsame (hkey.trans heq.symm)
          simp [hkey, hne, hnone]
        · simp [hkey]
      · rw [if_neg hless, candidatesAt_cons, ih hrest]
        split_ifs with hbucket hkey
        · exact absurd (hkey.trans hbucket.symm) hsame
        · simp
        · rfl
        · rfl

/-- The values under a hash. -/
def valuesAt (entries : List (Int32 × List Tree)) (hash : Int32) : List (List Tree) :=
  entries.filterMap fun entry => if entry.1 = hash then some entry.2 else none

theorem valuesAt_cons (entry : Int32 × List Tree) (rest : List (Int32 × List Tree))
    (key : Int32) :
    valuesAt (entry :: rest) key =
      if entry.1 = key then entry.2 :: valuesAt rest key else valuesAt rest key := by
  rw [valuesAt, List.filterMap_cons]
  split_ifs <;> rfl

theorem valuesAt_addHashed (entries : List (Int32 × List Tree)) (value : Tree) :
    valuesAt (addHashed entries hash value) key =
      if hash = key then
        match valuesAt entries key with
        | [] => [[value]]
        | first :: rest => (first ++ [value]) :: rest
      else valuesAt entries key := by
  induction entries with
  | nil =>
    simp only [addHashed, valuesAt, List.filterMap_cons, List.filterMap_nil]
    split_ifs <;> rfl
  | cons entry rest ih =>
    rw [addHashed]
    split_ifs with hsame hkey hkey
    · simp [valuesAt_cons, hsame, hkey]
    · simp [valuesAt_cons, hsame, hkey]
    · rw [valuesAt_cons, valuesAt_cons, ih, if_pos hkey]
      have hne : entry.1 ≠ key := fun heq => hsame (heq.trans hkey.symm)
      simp [hne]
    · rw [valuesAt_cons, valuesAt_cons, ih, if_neg hkey]

theorem candidatesAt_foldl (h : Ordered buckets) (entries : List (Int32 × List Tree))
    (body : Tree) :
    Ordered (entries.foldl (fun acc entry => addCandidate acc entry.1 ⟨entry.2, body⟩) buckets) ∧
      candidatesAt (entries.foldl (fun acc entry => addCandidate acc entry.1 ⟨entry.2, body⟩)
        buckets) key = candidatesAt buckets key ++ (valuesAt entries key).map (⟨·, body⟩) := by
  induction entries generalizing buckets with
  | nil => exact ⟨h, (List.append_nil _).symm⟩
  | cons entry rest ih =>
    obtain ⟨hordered, hcandidates⟩ := ih h.addCandidate
    refine ⟨hordered, ?_⟩
    rw [List.foldl_cons, hcandidates, candidatesAt_addCandidate h, List.append_assoc,
      valuesAt_cons]
    split_ifs <;> rfl

/-- A group is spread over the hashes of its texts. -/
theorem valuesAt_texts (texts : List String) (key : Int32) :
    valuesAt ((texts.map fun text => (textHash text, textTree text)).foldl
      (fun acc pair => addHashed acc pair.1 pair.2) []) key =
        match texts.filter (textHash · = key) with
        | [] => []
        | same => [same.map textTree] := by
  induction texts using List.reverseRecOn with
  | nil => rfl
  | append_singleton texts text ih =>
    rw [List.map_append, List.foldl_append, List.map_singleton, List.foldl_cons, List.foldl_nil,
      valuesAt_addHashed, ih, List.filter_append, List.filter_singleton]
    by_cases hkey : textHash text = key
    · rw [if_pos hkey, decide_eq_true hkey]
      cases texts.filter (textHash · = key) with
      | nil => rfl
      | cons first same => simp
    · rw [if_neg hkey, decide_eq_false hkey]
      simp

/-- The part of a group with a hash becomes a candidate for it. -/
theorem candidatesAt_addGroup (h : Ordered buckets) (group : TextGroup) (key : Int32) :
    Ordered (addGroup buckets (group.texts.map fun text => (textHash text, textTree text))
        group.body) ∧
      candidatesAt (addGroup buckets
        (group.texts.map fun text => (textHash text, textTree text)) group.body) key =
          candidatesAt buckets key ++ (group.withHash? key).toList.map TextGroup.candidate := by
  obtain ⟨hordered, hcandidates⟩ := candidatesAt_foldl h ((group.texts.map fun text =>
    (textHash text, textTree text)).foldl (fun acc pair => addHashed acc pair.1 pair.2) [])
    group.body
  refine ⟨hordered, hcandidates.trans ?_⟩
  rw [valuesAt_texts, TextGroup.withHash?]
  cases group.texts.filter (textHash · = key) with
  | nil => rfl
  | cons first same => rfl

end Buckets

section Distinct

theorem hashValues_texts {seen texts : List String} (h : (seen.reverse ++ texts).Nodup) :
    hashValues (seen.map .text) (texts.map textTree) =
      .ok (texts.map fun text => (textHash text, textTree text),
        (texts.reverse ++ seen).map .text) := by
  induction texts generalizing seen with
  | nil => rfl
  | cons text rest ih =>
    have hnew : text ∉ seen := by
      intro hmem
      have hdisjoint := (List.nodup_append.mp h).2.2
      exact hdisjoint text (List.mem_reverse.mpr hmem) text List.mem_cons_self rfl
    have hany : (seen.map Literal.text).any (Literal.text text).sameValue = false := by
      rw [List.any_map, List.any_eq_false]
      intro other hother
      have hne : text ≠ other := fun heq => hnew (heq ▸ hother)
      simpa [Literal.sameValue, Literal.canonical] using hne
    have hrest := @ih (text :: seen) (by simpa using h)
    rw [List.map_cons] at hrest
    simp only [List.map_cons, textTree, hashValues, Literal.hash?, hany, Bool.false_eq_true,
      if_false]
    change (hashValues _ (rest.map textTree) >>= _) = _
    rw [hrest, List.reverse_cons, List.append_assoc]
    rfl

theorem exists_bucketsOf {buckets : List Bucket} {seen : List String} {groups : List TextGroup}
    (hbuckets : Ordered buckets) (h : (seen.reverse ++ groups.flatMap TextGroup.texts).Nodup) :
    ∃ result, bucketsOf buckets (seen.map .text) (groups.map TextGroup.group) = .ok result ∧
      Ordered result ∧ ∀ key, candidatesAt result key = candidatesAt buckets key ++
        (groups.filterMap (TextGroup.withHash? key)).map TextGroup.candidate := by
  induction groups generalizing buckets seen with
  | nil => exact ⟨buckets, rfl, hbuckets, fun key => (List.append_nil _).symm⟩
  | cons group rest ih =>
    rw [List.flatMap_cons, ← List.append_assoc] at h
    have hhashed := hashValues_texts h.of_append_left
    have hgroup := candidatesAt_addGroup hbuckets group
    obtain ⟨result, hresult, hordered, hcandidates⟩ := @ih _ (group.texts.reverse ++ seen)
      (hgroup 0).1 (by simpa using h)
    refine ⟨result, ?_, hordered, ?_⟩
    · rw [List.map_cons, bucketsOf, TextGroup.group, hhashed]
      exact hresult
    · intro key
      rw [hcandidates, (hgroup key).2, List.append_assoc, List.filterMap_cons]
      cases group.withHash? key with
      | none => rfl
      | some part => rfl

end Distinct

/-- Among the candidates for its own hash, a text finds its group. -/
theorem find?_withHash? (groups : List TextGroup) (text : String) :
    ((groups.filterMap (TextGroup.withHash? (textHash text))).find?
      (·.texts.contains text)).map TextGroup.body =
        (groups.find? (·.texts.contains text)).map TextGroup.body := by
  induction groups with
  | nil => rfl
  | cons group rest ih =>
    have hmem : (group.texts.filter (textHash · = textHash text)).contains text =
        group.texts.contains text := by
      rw [Bool.eq_iff_iff]
      simp
    rw [List.filterMap_cons, List.find?_cons, TextGroup.withHash?]
    cases hsame : group.texts.filter (textHash · = textHash text) with
    | nil =>
      rw [hsame] at hmem
      rw [← hmem]
      exact ih
    | cons first same =>
      rw [hsame] at hmem
      simp only [List.find?_cons, hmem]
      cases group.texts.contains text with
      | true => rfl
      | false => exact ih

section Groups

theorem select_of_notMem {text : String} {arms : List TextArm}
    (h : text ∉ arms.filterMap TextArm.text?) : select text arms = .default := by
  induction arms with
  | nil => rfl
  | cons arm rest ih =>
    rw [select, if_neg]
    · apply ih
      intro hmem
      obtain ⟨other, hother, htext⟩ := List.mem_filterMap.mp hmem
      exact h (List.mem_filterMap.mpr ⟨other, List.mem_cons_of_mem _ hother, htext⟩)
    · intro htext
      exact h (List.mem_filterMap.mpr ⟨arm, List.mem_cons_self, htext⟩)

/-- Arms fall into these groups if the texts `pending` wait for a body. The texts
of groups are those of the arms, in their order, without those in front of the
default. A group that has the text has the body that is selected. -/
structure Grouped (pending : List String) (arms : List TextArm) (groups : List TextGroup) :
    Prop where
  groupArms_eq : groupArms (pending.map textTree) (arms.map TextArm.arm) =
    (groups.map TextGroup.group, (arms.filter (·.text?.isNone)).map TextArm.body)
  sublist : (groups.flatMap TextGroup.texts).Sublist (pending ++ arms.filterMap TextArm.text?)
  bodies : ∀ text, (groups.find? (·.texts.contains text)).map TextGroup.body =
    (if pending.contains text then firstBody arms else select text arms).body?

namespace Grouped

variable {pending : List String} {rest : List TextArm} {groups : List TextGroup} {value : String}
  {body : Tree}

theorem last (pending : List String) :
    Grouped pending [] (if pending.isEmpty then [] else [⟨pending, .breakTo none⟩]) := by
  cases pending with
  | nil => exact ⟨rfl, .slnil, fun text => rfl⟩
  | cons first rest =>
    refine ⟨rfl, by simp, ?_⟩
    intro text
    rw [if_neg (by simp), List.find?_singleton]
    cases (first :: rest).contains text with
    | true => rfl
    | false => rfl

/-- In front of the default, the texts that wait for a body are dropped. -/
theorem default (h : Grouped [] rest groups)
    (hdistinct : (pending ++ rest.filterMap TextArm.text?).Nodup) (body : Tree) :
    Grouped pending (⟨none, body⟩ :: rest) groups where
  groupArms_eq := by
    have hrest := h.groupArms_eq
    rw [List.map_nil] at hrest
    change ((groupArms _ (rest.map TextArm.arm)).1,
      body :: (groupArms _ (rest.map TextArm.arm)).2) = _
    rw [hrest]
    rfl
  sublist := h.sublist.trans (List.sublist_append_right _ _)
  bodies text := by
    have hskip : select text (⟨none, body⟩ :: rest) = select text rest := if_neg (by simp)
    rw [h.bodies, hskip]
    by_cases hpending : text ∈ pending
    · have hlater : select text rest = .default := by
        apply select_of_notMem
        intro hmem
        exact (List.nodup_append.mp hdistinct).2.2 text hpending text hmem rfl
      simp [hpending, hlater, firstBody]
    · simp [hpending]

/-- The text of an empty arm waits for the next body. -/
theorem empty (h : Grouped (pending ++ [value]) rest groups) (hempty : body.isEmpty = true) :
    Grouped pending (⟨some value, body⟩ :: rest) groups where
  groupArms_eq := by
    change (if body.isEmpty then groupArms (pending.map textTree ++ [textTree value])
      (rest.map TextArm.arm) else _) = _
    rw [if_pos hempty, ← List.map_singleton, ← List.map_append, h.groupArms_eq]
    rfl
  sublist := by simpa using h.sublist
  bodies text := by
    rw [h.bodies]
    by_cases hpending : text ∈ pending
    · simp [hpending, firstBody, hempty]
    · by_cases htext : value = text
      · simp [hpending, htext, select, firstBody, hempty]
      · simp [hpending, htext, Ne.symm htext, select]

/-- A body closes the group. -/
theorem closed (h : Grouped [] rest groups) (hbody : body.isEmpty = false) :
    Grouped pending (⟨some value, body⟩ :: rest) (⟨pending ++ [value], body⟩ :: groups) where
  groupArms_eq := by
    have hrest := h.groupArms_eq
    rw [List.map_nil] at hrest
    change (if body.isEmpty then _ else (⟨pending.map textTree ++ [textTree value], body⟩ ::
      (groupArms _ (rest.map TextArm.arm)).1, (groupArms _ (rest.map TextArm.arm)).2)) = _
    rw [if_neg (by simp [hbody]), hrest, ← List.map_singleton, ← List.map_append]
    rfl
  sublist := by
    have hsublist := (List.Sublist.refl (pending ++ [value])).append h.sublist
    simpa using hsublist
  bodies text := by
    rw [List.find?_cons]
    by_cases hpending : text ∈ pending
    · simp [hpending, firstBody, hbody, Selection.body?]
    · by_cases htext : value = text
      · simp [htext, hpending, select, firstBody, hbody, Selection.body?]
      · have hnone : (pending ++ [value]).contains text = false := by
          simp [hpending, Ne.symm htext]
        rw [hnone]
        refine (h.bodies text).trans ?_
        simp [hpending, htext, select]

end Grouped

theorem exists_grouped {pending : List String} {arms : List TextArm}
    (h : (pending ++ arms.filterMap TextArm.text?).Nodup) :
    ∃ groups, Grouped pending arms groups := by
  induction arms generalizing pending with
  | nil => exact ⟨_, .last pending⟩
  | cons arm rest ih =>
    have hrest : (rest.filterMap TextArm.text?).Nodup := by
      have hsublist := (List.sublist_cons_self arm rest).filterMap TextArm.text?
      exact List.Nodup.sublist hsublist h.of_append_right
    obtain ⟨_ | value, body⟩ := arm
    · obtain ⟨groups, hgroups⟩ := @ih [] hrest
      exact ⟨groups, hgroups.default h body⟩
    · cases hbody : body.isEmpty with
      | true =>
        obtain ⟨groups, hgroups⟩ := @ih (pending ++ [value]) (by simpa using h)
        exact ⟨groups, hgroups.empty hbody⟩
      | false =>
        obtain ⟨groups, hgroups⟩ := @ih [] hrest
        exact ⟨_, hgroups.closed hbody⟩

end Groups

section Arms

/-- The arm for a bucket. -/
def bucketArm (equals : Tree → Tree) (bucket : Bucket) : Arm :=
  .new (.int bucket.hash) (chain equals bucket.candidates)

theorem splitArms_buckets (switch : Tree) (equals : Tree → Tree) (buckets : List Bucket)
    {defaults : List Tree} (h : defaults.length ≤ 1) :
    splitArms switch none (buckets.map (bucketArm equals) ++ defaults.map Arm.otherwise) =
      .ok (buckets.map fun bucket => ⟨bucket.hash, .int bucket.hash,
        chain equals bucket.candidates⟩, defaults.head?) := by
  induction buckets with
  | nil =>
    match defaults, h with
    | [], _ => rfl
    | [body], _ => rfl
  | cons bucket rest ih =>
    rw [List.map_cons, List.cons_append, bucketArm, Arm.new, splitArms, ih]
    rfl

theorem repeatedArm?_eq_none {arms : List KeyedArm}
    (h : arms.Pairwise fun arm next => arm.key.toInt < next.key.toInt) :
    repeatedArm? arms = none := by
  induction arms with
  | nil => rfl
  | cons arm rest ih =>
    obtain ⟨hfirst, hrest⟩ := List.pairwise_cons.mp h
    cases rest with
    | nil => rfl
    | cons next rest =>
      have hlt := hfirst next List.mem_cons_self
      rw [repeatedArm?, if_neg]
      · exact ih hrest
      · intro heq
        rw [heq] at hlt
        omega

/-- Ordered buckets are dispatched on as they are. -/
theorem collectArms_buckets (switch : Tree) (equals : Tree → Tree) {buckets : List Bucket}
    {defaults : List Tree} (hordered : Ordered buckets) (h : defaults.length ≤ 1) :
    collectArms switch (buckets.map (bucketArm equals) ++ defaults.map Arm.otherwise) =
      .ok (buckets.map fun bucket => (bucket.hash, chain equals bucket.candidates),
        defaults.head?) := by
  have hascending : (buckets.map fun bucket => (⟨bucket.hash, .int bucket.hash,
      chain equals bucket.candidates⟩ : KeyedArm)).Pairwise
        fun arm next => arm.key.toInt < next.key.toInt := List.pairwise_map.mpr hordered
  have hsorted := (hascending.imp fun hlt => decide_eq_true hlt.le).insertionSort_eq
  refine bind_eq_ok.mpr ⟨_, splitArms_buckets switch equals buckets h, ?_⟩
  dsimp only
  rw [sortBy_eq_insertionSort, hsorted, repeatedArm?_eq_none hascending]
  simp [pure, Except.pure]

variable {σ : Type} {m : Meaning σ} {equals : Tree → Tree} {x : σ}

/-- A bucket never runs into the next one. -/
theorem fallThrough_buckets {key : Int32} {buckets : List Bucket}
    (h : (m.perform (chain equals (candidatesAt buckets key)) x).1 ≠ .normal) :
    m.fallThrough ((buckets.map fun bucket =>
      (bucket.hash, chain equals bucket.candidates)).dropWhile (·.1 ≠ key)) x =
        .ofExit (m.perform (chain equals (candidatesAt buckets key)) x) := by
  induction buckets with
  | nil =>
    change _ = Landing.ofExit (m.perform .redirect x)
    rw [Meaning.perform]
    rfl
  | cons bucket rest ih =>
    rw [candidatesAt_cons] at h ⊢
    by_cases hkey : bucket.hash = key
    · rw [if_pos hkey] at h ⊢
      rw [List.map_cons, List.dropWhile_cons_of_neg (by simpa using hkey), Meaning.fallThrough]
      generalize m.perform (chain equals bucket.candidates) x = ended at h ⊢
      obtain ⟨_ | _ | _ | _, y⟩ := ended
      · exact absurd rfl h
      all_goals rfl
    · rw [if_neg hkey] at h ⊢
      rw [List.map_cons, List.dropWhile_cons_of_pos (by simpa using hkey)]
      exact ih h

end Arms

section Selected

variable {σ : Type} {m : Meaning σ} {read : Tree} {text : String} {x : σ}

theorem perform_block_ne_normal (body : Tree) :
    (m.perform (.block [body, .redirect]) x).1 ≠ .normal := by
  rw [Meaning.perform, Meaning.performAll]
  rcases m.perform body x with ⟨_ | _ | _ | _, y⟩
  · dsimp only
    rw [Meaning.performAll, Meaning.perform]
    exact nofun
  all_goals exact nofun

/-- The guards for a hash lead where the text selects. -/
theorem ofExit_chain (h : IsText m read text x) {groups : List TextGroup} {selection : Selection}
    (hbody : (groups.find? (·.texts.contains text)).map TextGroup.body = selection.body?) :
    (m.perform (chain (equalsCall read) (groups.map TextGroup.candidate)) x).1 ≠ .normal ∧
      Landing.ofExit (m.perform (chain (equalsCall read) (groups.map TextGroup.candidate)) x) =
        selection.land m x := by
  rw [perform_chain h, hbody]
  cases selection with
  | body tree => exact ⟨perform_block_ne_normal tree, perform_body tree x⟩
  | default => exact ⟨nofun, rfl⟩
  | exit =>
    refine ⟨perform_block_ne_normal _, (perform_body _ x).trans ?_⟩
    rw [Meaning.perform]
    rfl

/-- The switch over hash codes that stands for a switch over different texts
goes where the text of the subject selects, however the hashes fall together. -/
theorem hashed_selects {σ : Type} {arms : List TextArm}
    (htexts : (arms.filterMap TextArm.text?).Nodup)
    (hdefault : (arms.filter (·.text?.isNone)).length ≤ 1) (label : Option String)
    (subject : Tree) (ty : Ty) (name : String) :
    ∃ hashArms keyed defaultBody,
      hashed .text label subject (arms.map TextArm.arm) ty name =
        .ok (.block [.declareLocal name ty (some subject),
          .switch label .int (hashCodeCall (.readLocal name ty)) hashArms]) ∧
      collectArms (.switch label .int (hashCodeCall (.readLocal name ty)) hashArms) hashArms =
        .ok (keyed, defaultBody) ∧
      defaultBody = (arms.find? (·.text?.isNone)).map TextArm.body ∧
      ∀ (m : Meaning σ) (text : String) (x : σ), IsText m (.readLocal name ty) text x →
        m.dispatch (hashCodeCall (.readLocal name ty)) keyed x = (select text arms).land m x := by
  obtain ⟨groups, hgroups, hsublist, hbodies⟩ := @exists_grouped [] arms htexts
  have hnodup : ([].reverse ++ groups.flatMap TextGroup.texts).Nodup := htexts.sublist hsublist
  obtain ⟨buckets, hbuckets, hordered, hcandidates⟩ :=
    @exists_bucketsOf [] [] groups List.Pairwise.nil hnodup
  refine ⟨buckets.map (bucketArm (equalsCall (.readLocal name ty))) ++
      ((arms.filter (·.text?.isNone)).map TextArm.body).map Arm.otherwise, _, _, ?_,
    collectArms_buckets _ _ hordered (by simpa using hdefault), ?_, ?_⟩
  · rw [List.map_nil] at hgroups
    unfold hashed
    rw [hgroups]
    exact bind_eq_ok.mpr ⟨buckets, hbuckets, rfl⟩
  · rw [List.head?_map, List.head?_filter]
  · intro m text x htext
    have hselected : ((groups.filterMap (TextGroup.withHash? (textHash text))).find?
        (·.texts.contains text)).map TextGroup.body = (select text arms).body? := by
      rw [find?_withHash?, hbodies]
      rfl
    obtain ⟨hends, hlands⟩ := ofExit_chain htext hselected
    have hat : candidatesAt buckets (textHash text) =
        (groups.filterMap (TextGroup.withHash? (textHash text))).map TextGroup.candidate :=
      hcandidates (textHash text)
    rw [← hat] at hends hlands
    rw [Meaning.dispatch, htext.hash]
    exact (fallThrough_buckets hends).trans hlands

/-- Two texts with the same hash, a group over two hashes, an empty arm in front
of the default and one at the end. -/
def colliding : List TextArm :=
  [⟨some "c", .nothing⟩, ⟨some "Aa", .declareLocal "first" Ty.int none⟩,
    ⟨some "BB", .declareLocal "second" Ty.int none⟩, ⟨some "d", .nothing⟩, ⟨none, .ret none⟩,
    ⟨some "e", .nothing⟩]

/-- Every statement is recorded and ends normally. -/
def recording (text : String) : Meaning (List Tree) where
  test
    | .invoke _ _ _ _ [.literal (.text other)], x => (some (text == other), x)
    | _, x => (none, x)
  key _ x := (some (textHash text), x)
  other tree x := (.normal, x ++ [tree])

theorem hashed_selects_colliding :
    textHash "Aa" = textHash "BB" ∧ ∃ hashArms keyed defaultBody,
      hashed .text none (.readLocal "s" Ty.text) (colliding.map TextArm.arm) Ty.text "$subject0" =
        .ok (.block [.declareLocal "$subject0" Ty.text (some (.readLocal "s" Ty.text)),
          .switch none .int (hashCodeCall (.readLocal "$subject0" Ty.text)) hashArms]) ∧
      collectArms (.switch none .int (hashCodeCall (.readLocal "$subject0" Ty.text)) hashArms)
        hashArms = .ok (keyed, defaultBody) ∧
      [("c", Landing.atDefault [Tree.declareLocal "first" Ty.int none]),
        ("BB", .atDefault [.declareLocal "second" Ty.int none]), ("d", .atDefault []),
        ("e", .outside []), ("f", .atDefault [])].Forall fun (text, landing) =>
          (recording text).dispatch (hashCodeCall (.readLocal "$subject0" Ty.text)) keyed [] =
            landing := by
  obtain ⟨hashArms, keyed, defaultBody, hhashed, hkeyed, _, hlands⟩ :=
    hashed_selects (σ := List Tree) (show (colliding.filterMap TextArm.text?).Nodup by decide)
      (by decide) none (.readLocal "s" Ty.text) Ty.text "$subject0"
  have hland (text : String) := hlands (recording text) text [] ⟨rfl, fun other => rfl⟩
  refine ⟨by decide +kernel, hashArms, keyed, defaultBody, hhashed, hkeyed, ?_⟩
  simp only [List.forall_cons, hland]
  exact ⟨rfl, rfl, rfl, rfl, rfl, trivial⟩

end Selected

end Switch

end StackLowering
