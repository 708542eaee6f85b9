import StackLowering.Proofs.Dispatch
import StackLowering.Proofs.OrdinaryFaults
/-!
Switches whose arms correspond to each other. Keys and hashes come from literals, so
arms of the same literals are sorted, dispatched on and collected into buckets in the
same way, and only their bodies differ.
-/

namespace StackLowering

/-- Both fail with related faults, or both succeed with related values. -/
inductive Outcomes {α β : Type} (F : Fault → Fault → Prop) (V : α → β → Prop) :
    Except Fault α → Except Fault β → Prop
  | ok {value : α} {value' : β} (h : V value value') : Outcomes F V (.ok value) (.ok value')
  | error {fault fault' : Fault} (h : F fault fault') : Outcomes F V (.error fault) (.error fault')

theorem Outcomes.refl {α : Type} {F : Fault → Fault → Prop} {V : α → α → Prop}
    {outcome : Except Fault α} (hfault : ∀ fault, outcome = .error fault → F fault fault)
    (hvalue : ∀ value, outcome = .ok value → V value value) : Outcomes F V outcome outcome := by
  cases outcome with
  | error fault => exact .error (hfault fault rfl)
  | ok value => exact .ok (hvalue value rfl)

/-- Both fail, or both succeed with corresponding values. -/
inductive Agree {α β : Type} (V : α → β → Prop) : Except Fault α → Except Fault β → Prop
  | ok {value : α} {value' : β} (h : V value value') : Agree V (.ok value) (.ok value')
  | error {fault fault' : Fault} : Agree V (.error fault) (.error fault')

namespace Agree

variable {α β γ δ : Type} {V : α → β → Prop} {W : γ → δ → Prop}

theorem of_eq {first second : Except Fault α} (h : first = second) : Agree Eq first second := by
  subst h
  cases first with
  | ok value => exact .ok rfl
  | error fault => exact .error

theorem outcomes {first : Except Fault α} {second : Except Fault β} (h : Agree V first second) :
    Outcomes (fun _ _ => True) V first second := by
  cases h with
  | ok hvalue => exact .ok hvalue
  | error => exact .error trivial

theorem imp {W : α → β → Prop} {first : Except Fault α} {second : Except Fault β}
    (h : Agree V first second) (hV : ∀ value value', V value value' → W value value') :
    Agree W first second := by
  cases h with
  | ok hvalue => exact .ok (hV _ _ hvalue)
  | error => exact .error

theorem bind {first : Except Fault α} {second : Except Fault β} {next : α → Except Fault γ}
    {next' : β → Except Fault δ} (h : Agree V first second)
    (hnext : ∀ value value', V value value' → Agree W (next value) (next' value')) :
    Agree W (first >>= next) (second >>= next') := by
  cases h with
  | ok hvalue => exact hnext _ _ hvalue
  | error => exact .error

end Agree

section Sorting

variable {α β : Type} {R : α → β → Prop} {le : α → α → Bool} {le' : β → β → Bool}

theorem forall₂_insertBy (hle : ∀ a b c d, R a b → R c d → le a c = le' b d) {x : α} {y : β}
    (hxy : R x y) {xs : List α} {ys : List β} (h : List.Forall₂ R xs ys) :
    List.Forall₂ R (insertBy le x xs) (insertBy le' y ys) := by
  induction h with
  | nil => exact .cons hxy .nil
  | cons hfirst hrest ih =>
    rw [insertBy, insertBy, hle _ _ _ _ hxy hfirst]
    split_ifs
    · exact .cons hxy (.cons hfirst hrest)
    · exact .cons hfirst ih

theorem forall₂_sortBy (hle : ∀ a b c d, R a b → R c d → le a c = le' b d) {xs : List α}
    {ys : List β} (h : List.Forall₂ R xs ys) :
    List.Forall₂ R (sortBy le xs) (sortBy le' ys) := by
  induction h with
  | nil => exact .nil
  | cons hfirst _ ih => exact forall₂_insertBy hle hfirst ih

end Sorting

namespace Switch

variable {Same : Tree → Tree → Prop} {value value' : Tree} {arms arms' : List Arm}

/-- The same literal, or values that no switch can be over. -/
inductive SameValue : Tree → Tree → Prop
  | literal {literal : Literal} {hash : Int32} (h : literal.hash? = some hash) :
      SameValue (.literal literal) (.literal literal)
  | unhashed {value value' : Tree} (h : ∀ literal, value = .literal literal → literal.hash? = none)
      (h' : ∀ literal, value' = .literal literal → literal.hash? = none) : SameValue value value'

theorem SameValue.refl (value : Tree) : SameValue value value := by
  by_cases h : ∀ literal, value = .literal literal → literal.hash? = none
  · exact .unhashed h h
  · obtain ⟨literal, rfl, hhash⟩ := by simpa only [not_forall] using h
    obtain ⟨hash, hhash⟩ := Option.ne_none_iff_exists'.mp hhash
    exact .literal hhash

theorem SameValue.armKey (h : SameValue value value') :
    Agree Eq (armKey value) (armKey value') := by
  have hnone {value : Tree} (h : ∀ literal, value = .literal literal → literal.hash? = none) :
      ∃ fault, Switch.armKey value = .error fault := by
    cases value with
    | literal literal =>
      have hhash := h literal rfl
      cases literal with
      | null | classOf => exact ⟨_, rfl⟩
      | _ => cases hhash
    | _ => exact ⟨_, rfl⟩
  cases h with
  | literal => exact .of_eq rfl
  | unhashed h h' =>
    obtain ⟨fault, hfault⟩ := hnone h
    obtain ⟨fault', hfault'⟩ := hnone h'
    rw [hfault, hfault']
    exact .error

/-- The values and the bodies of the arms are related. -/
structure SameArm (Value Same : Tree → Tree → Prop) (arm arm' : Arm) : Prop where
  value : Option.Rel Value arm.value arm'.value
  body : Same arm.body arm'.body

section Keyed

/-- Arms of the same key. -/
structure SameKeyed (Same : Tree → Tree → Prop) (arm arm' : KeyedArm) : Prop where
  key : arm.key = arm'.key
  body : Same arm.body arm'.body

theorem agree_splitArms (harms : List.Forall₂ (SameArm SameValue Same) arms arms')
    {found found' : Option Tree} (hfound : Option.Rel Same found found') (switch switch' : Tree) :
    Agree (fun split split' => List.Forall₂ (SameKeyed Same) split.1 split'.1 ∧
        Option.Rel Same split.2 split'.2)
      (splitArms switch found arms) (splitArms switch' found' arms') := by
  induction harms generalizing found found' with
  | nil => exact .ok ⟨.nil, hfound⟩
  | @cons arm arm' _ _ harm _ ih =>
    obtain ⟨value, body⟩ := arm
    obtain ⟨value', body'⟩ := arm'
    obtain ⟨hvalue, hbody⟩ := harm
    cases hvalue with
    | none =>
      cases hfound with
      | none => exact ih (.some hbody)
      | some => exact .error
    | some hvalue =>
      apply hvalue.armKey.bind
      rintro key _ rfl
      apply (ih hfound).bind
      rintro split split' ⟨hkeyed, hdefault⟩
      exact .ok ⟨.cons ⟨rfl, hbody⟩ hkeyed, hdefault⟩

theorem isSome_repeatedArm? {keyed keyed' : List KeyedArm}
    (h : List.Forall₂ (SameKeyed Same) keyed keyed') :
    (repeatedArm? keyed).isSome = (repeatedArm? keyed').isSome := by
  induction h with
  | nil => rfl
  | cons hfirst hrest ih =>
    cases hrest with
    | nil => rfl
    | cons hsecond _ =>
      rw [repeatedArm?, repeatedArm?, hfirst.key, hsecond.key]
      split_ifs
      · rfl
      · exact ih

/-- Entries of the same key. -/
structure SameEntry (Same : Tree → Tree → Prop) (arm arm' : Int32 × Tree) : Prop where
  key : arm.1 = arm'.1
  body : Same arm.2 arm'.2
  redirect : arm.2.isPureRedirect = arm'.2.isPureRedirect

theorem agree_collectArms (harms : List.Forall₂ (SameArm SameValue Same) arms arms')
    (hredirect : ∀ {body body'}, Same body body' → body.isPureRedirect = body'.isPureRedirect)
    (switch switch' : Tree) :
    Agree (fun split split' => List.Forall₂ (SameEntry Same) split.1 split'.1 ∧
        Option.Rel Same split.2 split'.2)
      (collectArms switch arms) (collectArms switch' arms') := by
  apply (agree_splitArms harms .none switch switch').bind
  rintro ⟨keyed, default⟩ ⟨keyed', default'⟩ ⟨hkeyed, hdefault⟩
  have hsorted : List.Forall₂ (SameKeyed Same)
      (sortBy (fun a b => decide (a.key.toInt ≤ b.key.toInt)) keyed)
      (sortBy (fun a b => decide (a.key.toInt ≤ b.key.toInt)) keyed') := by
    apply forall₂_sortBy _ hkeyed
    intro a b c d hab hcd
    rw [hab.key, hcd.key]
  have hrepeated := isSome_repeatedArm? hsorted
  dsimp only
  generalize sortBy _ keyed = sorted at hsorted hrepeated
  generalize sortBy _ keyed' = sorted' at hsorted hrepeated
  cases hfirst : repeatedArm? sorted with
  | some arm =>
    rw [hfirst, Option.isSome_some, eq_comm, Option.isSome_iff_exists] at hrepeated
    obtain ⟨arm', hsecond⟩ := hrepeated
    rw [hsecond]
    exact .error
  | none =>
    rw [hfirst, Option.isSome_none, eq_comm, Option.isSome_eq_false_iff,
      Option.isNone_iff_eq_none] at hrepeated
    rw [hrepeated]
    apply Agree.ok
    refine ⟨?_, hdefault⟩
    rw [List.forall₂_map_left_iff, List.forall₂_map_right_iff]
    exact hsorted.imp fun a b hab => ⟨hab.key, hab.body, hredirect hab.body⟩

end Keyed

section Dispatched

variable {keyed keyed' : List (Int32 × Tree)}

theorem forall₂_getLast? {α β : Type} {R : α → β → Prop} {xs : List α} {ys : List β}
    (h : List.Forall₂ R xs ys) : Option.Rel R xs.getLast? ys.getLast? := by
  induction h with
  | nil => exact .none
  | cons hfirst hrest ih =>
    cases hrest with
    | nil => exact .some hfirst
    | cons =>
      rw [List.getLast?_cons_cons, List.getLast?_cons_cons]
      exact ih

theorem map_fst_eq (h : List.Forall₂ (SameEntry Same) keyed keyed') :
    keyed.map Prod.fst = keyed'.map Prod.fst := by
  induction h with
  | nil => rfl
  | cons hfirst _ ih => rw [List.map_cons, List.map_cons, hfirst.key, ih]

theorem forall₂_fillGaps (hredirect : Same .redirect .redirect)
    (h : List.Forall₂ (SameEntry Same) keyed keyed') :
    List.Forall₂ (SameEntry Same) (fillGaps keyed) (fillGaps keyed') := by
  induction h with
  | nil => exact .nil
  | @cons first first' _ _ hfirst hrest ih =>
    cases hrest with
    | nil => exact .cons hfirst .nil
    | @cons second second' _ _ hsecond _ =>
      have hgaps : List.Forall₂ (SameEntry Same)
          ((keysBetween first.1 second.1).map (·, .redirect))
          ((keysBetween first'.1 second'.1).map (·, .redirect)) := by
        rw [hfirst.key, hsecond.key, List.forall₂_map_left_iff, List.forall₂_map_right_iff,
          List.forall₂_same]
        exact fun key _ => ⟨rfl, hredirect, rfl⟩
      exact List.rel_append (.cons hfirst hgaps) ih

/-- Entries of the same keys are dispatched on alike. -/
theorem outcomes_dispatchedArms {F : Fault → Fault → Prop}
    (hfault : ∀ fault, fault.isOrdinary = true → F fault fault)
    (hredirect : Same .redirect .redirect) (h : List.Forall₂ (SameEntry Same) keyed keyed')
    (encoding : Encoding) (limit : Nat) :
    Outcomes F (List.Forall₂ (SameEntry Same)) (Lowering.dispatchedArms encoding limit keyed)
      (Lowering.dispatchedArms encoding limit keyed') := by
  have hfirst : Option.Rel (SameEntry Same) keyed.head? keyed'.head? := by
    cases h with
    | nil => exact .none
    | cons hfirst _ => exact .some hfirst
  have hlast := forall₂_getLast? h
  unfold Lowering.dispatchedArms
  generalize keyed.head? = first, keyed'.head? = first' at hfirst
  generalize keyed.getLast? = last, keyed'.getLast? = last' at hlast
  cases encoding with
  | lookup => exact .ok h
  | table =>
    cases hfirst with
    | none => exact .ok h
    | @some low low' hlow =>
      cases hlast with
      | none => exact .ok h
      | @some high high' hhigh =>
        obtain ⟨low, body⟩ := low
        obtain ⟨high, body'⟩ := high
        obtain rfl := hlow.key
        obtain rfl := hhigh.key
        dsimp only
        split_ifs
        · exact .error (hfault _ rfl)
        · exact .ok (forall₂_fillGaps hredirect h)

end Dispatched

section Hashed

/-- The relation is kept by what a switch over hash codes is put together from. -/
structure Composes (Same : Tree → Tree → Prop) : Prop where
  isEmpty : ∀ {body body'}, Same body body' → body.isEmpty = body'.isEmpty
  literal : ∀ literal, Same (.literal literal) (.literal literal)
  leave : Same (.breakTo none) (.breakTo none)
  redirect : Same .redirect .redirect
  cast : ∀ ty {value value'}, Same value value' → Same (.cast ty value) (.cast ty value')
  or : ∀ {left left' right right'}, Same left left' → Same right right' →
    Same (.logical .or left right) (.logical .or left' right')
  not : ∀ {value value'}, Same value value' → Same (.not value) (.not value')
  block : ∀ {trees trees'}, List.Forall₂ Same trees trees' → Same (.block trees) (.block trees')
  branch : ∀ {condition condition' body body' otherwise otherwise'}, Same condition condition' →
    Same body body' → Option.Rel Same otherwise otherwise' →
      Same (.branch condition body otherwise) (.branch condition' body' otherwise')
  call : ∀ kind owner method {receiver receiver' args args'}, Same receiver receiver' →
    List.Forall₂ Same args args' → Same (.invoke kind owner method (some receiver) args)
      (.invoke kind owner method (some receiver') args')
  switch : ∀ label kind {subject subject' arms arms'}, Same subject subject' →
    List.Forall₂ (SameArm Same Same) arms arms' →
      Same (.switch label kind subject arms) (.switch label kind subject' arms')

/-- Values that share one body. -/
structure SameGroup (Same : Tree → Tree → Prop) (group group' : Group) : Prop where
  values : List.Forall₂ SameValue group.values group'.values
  body : Same group.body group'.body

/-- Candidates with the same values. -/
structure SameCandidate (Same : Tree → Tree → Prop) (candidate candidate' : Candidate) :
    Prop where
  values : candidate.values = candidate'.values
  value : ∀ value ∈ candidate.values, Same value value
  body : Same candidate.body candidate'.body

/-- Buckets of the same hash. -/
structure SameBucket (Same : Tree → Tree → Prop) (bucket bucket' : Bucket) : Prop where
  hash : bucket.hash = bucket'.hash
  candidates : List.Forall₂ (SameCandidate Same) bucket.candidates bucket'.candidates

variable {buckets buckets' : List Bucket} {equals : Tree → Tree}

/-- Values that have a hash are the same, and so are the arguments made from them. -/
theorem agree_hashValues (hsame : Composes Same) (seen : List Literal) {values values' : List Tree}
    (h : List.Forall₂ SameValue values values') :
    Agree (fun result result' => result = result' ∧ ∀ hashed ∈ result.1, Same hashed.2 hashed.2)
      (hashValues seen values) (hashValues seen values') := by
  have hnone {value : Tree} (h : ∀ literal, value = .literal literal → literal.hash? = none)
      (seen : List Literal) (rest : List Tree) :
      ∃ fault, hashValues seen (value :: rest) = .error fault := by
    cases value with
    | literal literal =>
      rw [hashValues, h literal rfl]
      exact ⟨_, rfl⟩
    | _ => exact ⟨_, rfl⟩
  induction h generalizing seen with
  | nil => exact .ok ⟨rfl, List.forall_mem_nil _⟩
  | @cons value value' rest rest' hvalue _ ih =>
    cases hvalue with
    | unhashed h h' =>
      obtain ⟨fault, hfault⟩ := hnone h seen rest
      obtain ⟨fault', hfault'⟩ := hnone h' seen rest'
      rw [hfault, hfault']
      exact .error
    | @literal literal hash hhash =>
      have hargument : Same (argument (.literal literal)) (argument (.literal literal)) := by
        unfold argument
        split
        · exact hsame.cast _ (hsame.literal literal)
        · exact hsame.literal literal
      rw [hashValues, hashValues, hhash]
      dsimp only
      split_ifs
      · exact .error
      · apply (ih (literal :: seen)).bind
        rintro result _ ⟨rfl, hclear⟩
        exact .ok ⟨rfl, List.forall_mem_cons.mpr ⟨hargument, hclear⟩⟩

theorem forall₂_groupArms (hsame : Composes Same)
    (harms : List.Forall₂ (SameArm SameValue Same) arms arms') {pending pending' : List Tree}
    (hpending : List.Forall₂ SameValue pending pending') :
    List.Forall₂ (SameGroup Same) (groupArms pending arms).1 (groupArms pending' arms').1 ∧
      List.Forall₂ Same (groupArms pending arms).2 (groupArms pending' arms').2 := by
  induction harms generalizing pending pending' with
  | nil =>
    rw [groupArms, groupArms]
    cases hpending with
    | nil => exact ⟨.nil, .nil⟩
    | cons hfirst hrest => exact ⟨.cons ⟨.cons hfirst hrest, hsame.leave⟩ .nil, .nil⟩
  | @cons arm arm' _ _ harm _ ih =>
    obtain ⟨hgroups, hdefaults⟩ := ih .nil
    obtain ⟨value, body⟩ := arm
    obtain ⟨value', body'⟩ := arm'
    obtain ⟨hvalue, hbody⟩ := harm
    cases hvalue with
    | none => exact ⟨hgroups, .cons hbody hdefaults⟩
    | some hvalue =>
      have hopen := List.rel_append hpending (.cons hvalue .nil)
      rw [groupArms, groupArms, hsame.isEmpty hbody]
      split_ifs
      · exact ih hopen
      · exact ⟨.cons ⟨hopen, hbody⟩ hgroups, hdefaults⟩

theorem forall_mem_addHashed {P : Tree → Prop} {entries : List (Int32 × List Tree)}
    (h : ∀ entry ∈ entries, ∀ value ∈ entry.2, P value) (hash : Int32) (hvalue : P value) :
    ∀ entry ∈ addHashed entries hash value, ∀ value ∈ entry.2, P value := by
  induction entries with
  | nil => simpa [addHashed] using hvalue
  | cons entry rest ih =>
    obtain ⟨hentry, hrest⟩ := List.forall_mem_cons.mp h
    rw [addHashed]
    split_ifs
    · have hvalues := List.forall_mem_append.mpr ⟨hentry, List.forall_mem_singleton.mpr hvalue⟩
      exact List.forall_mem_cons.mpr ⟨hvalues, hrest⟩
    · exact List.forall_mem_cons.mpr ⟨hentry, ih hrest⟩

theorem forall_mem_byHash {P : Tree → Prop} {hashed : List (Int32 × Tree)}
    (h : ∀ pair ∈ hashed, P pair.2) :
    ∀ entry ∈ hashed.foldl (fun acc pair => addHashed acc pair.1 pair.2) [],
      ∀ value ∈ entry.2, P value := by
  refine List.foldlRecOn (motive := fun entries : List (Int32 × List Tree) =>
    ∀ entry ∈ entries, ∀ value ∈ entry.2, P value) hashed _ (List.forall_mem_nil _) ?_
  intro entries hentries pair hpair
  exact forall_mem_addHashed hentries pair.1 (h pair hpair)

theorem forall₂_addCandidate (h : List.Forall₂ (SameBucket Same) buckets buckets') (hash : Int32)
    {candidate candidate' : Candidate} (hcandidate : SameCandidate Same candidate candidate') :
    List.Forall₂ (SameBucket Same) (addCandidate buckets hash candidate)
      (addCandidate buckets' hash candidate') := by
  have hnew : SameBucket Same ⟨hash, [candidate]⟩ ⟨hash, [candidate']⟩ :=
    ⟨rfl, .cons hcandidate .nil⟩
  induction h with
  | nil => exact .cons hnew .nil
  | cons hbucket hrest ih =>
    rw [addCandidate, addCandidate, hbucket.hash]
    split_ifs
    · have hcandidates := List.rel_append hbucket.candidates (.cons hcandidate .nil)
      exact .cons ⟨rfl, hcandidates⟩ hrest
    · exact .cons hnew (.cons hbucket hrest)
    · exact .cons hbucket ih

theorem forall₂_addGroup (h : List.Forall₂ (SameBucket Same) buckets buckets')
    {hashed : List (Int32 × Tree)} (hhashed : ∀ pair ∈ hashed, Same pair.2 pair.2)
    {body body' : Tree} (hbody : Same body body') : List.Forall₂ (SameBucket Same)
      (addGroup buckets hashed body) (addGroup buckets' hashed body') := by
  have hvalues := forall_mem_byHash (P := fun value => Same value value) hhashed
  unfold addGroup
  generalize hashed.foldl (fun acc pair => addHashed acc pair.1 pair.2) [] = entries at hvalues
  induction entries generalizing buckets buckets' with
  | nil => exact h
  | cons entry rest ih =>
    obtain ⟨hentry, hrest⟩ := List.forall_mem_cons.mp hvalues
    exact ih (forall₂_addCandidate h entry.1 ⟨rfl, hentry, hbody⟩) hrest

theorem agree_bucketsOf (hsame : Composes Same) {groups groups' : List Group}
    (hgroups : List.Forall₂ (SameGroup Same) groups groups')
    (h : List.Forall₂ (SameBucket Same) buckets buckets') (seen : List Literal) :
    Agree (List.Forall₂ (SameBucket Same)) (bucketsOf buckets seen groups)
      (bucketsOf buckets' seen groups') := by
  induction hgroups generalizing buckets buckets' seen with
  | nil => exact .ok h
  | cons hgroup _ ih =>
    apply (agree_hashValues hsame seen hgroup.values).bind
    rintro ⟨hashed, seen⟩ _ ⟨rfl, hvalues⟩
    exact ih (forall₂_addGroup h hvalues hgroup.body) seen

theorem same_anyEqual (hsame : Composes Same)
    (hequals : ∀ value, Same value value → Same (equals value) (equals value))
    {values : List Tree} (h : ∀ value ∈ values, Same value value) :
    Same (anyEqual equals values) (anyEqual equals values) := by
  cases values with
  | nil => exact hsame.literal _
  | cons value rest =>
    obtain ⟨hvalue, hrest⟩ := List.forall_mem_cons.mp h
    refine List.foldlRecOn (motive := fun tree => Same tree tree) rest _ (hequals value hvalue) ?_
    intro left hleft other hother
    exact hsame.or hleft (hequals other (hrest other hother))

theorem same_chain (hsame : Composes Same)
    (hequals : ∀ value, Same value value → Same (equals value) (equals value))
    {candidates candidates' : List Candidate}
    (h : List.Forall₂ (SameCandidate Same) candidates candidates') :
    Same (chain equals candidates) (chain equals candidates') := by
  induction h with
  | nil => exact hsame.redirect
  | @cons candidate candidate' rest rest' hfirst hrest ih =>
    obtain ⟨values, body⟩ := candidate
    obtain ⟨values', body'⟩ := candidate'
    obtain ⟨rfl, hvalues, hbody⟩ := hfirst
    have htest := same_anyEqual hsame hequals hvalues
    have hblock := hsame.block (.cons hbody (.cons hsame.redirect .nil))
    cases hrest with
    | nil => exact hsame.branch htest hblock .none
    | cons => exact hsame.branch (hsame.not htest) ih (.some hblock)

/-- A switch over hash codes keeps the subject in one new variable. The rest of it is
as the arms are. -/
theorem agree_hashed (hsame : Composes Same)
    (harms : List.Forall₂ (SameArm SameValue Same) arms arms') {ty : Ty} {name : String}
    (hread : Same (.readLocal name ty) (.readLocal name ty)) (kind : SwitchKind)
    (label : Option String) (subject subject' : Tree) :
    Agree (fun tree tree' => ∃ dispatch dispatch', Same dispatch dispatch' ∧
        tree = .block [.declareLocal name ty (some subject), dispatch] ∧
        tree' = .block [.declareLocal name ty (some subject'), dispatch'])
      (hashed kind label subject arms ty name) (hashed kind label subject' arms' ty name) := by
  obtain ⟨hgroups, hdefaults⟩ := forall₂_groupArms hsame harms .nil
  apply (agree_bucketsOf hsame hgroups .nil []).bind
  intro buckets buckets' hbuckets
  refine .ok ⟨_, _, hsame.switch label .int ?_ ?_, rfl, rfl⟩
  · exact hsame.call _ _ _ hread .nil
  · refine List.rel_append ?_ ?_ <;> rw [List.forall₂_map_left_iff, List.forall₂_map_right_iff]
    · refine hbuckets.imp fun bucket bucket' hbucket => ?_
      rw [hbucket.hash]
      refine ⟨.some (hsame.literal _), same_chain hsame ?_ hbucket.candidates⟩
      exact fun value hvalue => hsame.call _ _ _ hread (.cons hvalue .nil)
    · exact hdefaults.imp fun body body' hbody => ⟨.none, hbody⟩

end Hashed

end Switch

end StackLowering
