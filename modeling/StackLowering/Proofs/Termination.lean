import StackLowering.Proofs.Agreement
import StackLowering.Proofs.Everywhere
/-!
Lowering ends. A tree has a rank, which falls from a tree to everything that its
handler lowers: to the parts, to what is lowered in its place, and inside a region
by what the cleanup of the region may add. So the rank of a tree and the ranks of
the cleanups around it together bound how deep handlers nest, and neither the
bodies that a switch over hash codes copies nor the transfers in cleanups matter.
-/

namespace StackLowering

open Lower

namespace Tree

/-- What the handler of a tree may lower: its parts, a tree in its place, the key of
a switch over ints, or the body of a routine that it declares. -/
inductive Below : Tree → Tree → Prop
  | child {tree part : Tree} (h : part ∈ tree.children) : Below tree part
  | place {tree part : Tree} (h : Recur.Related.Becomes tree part) : Below tree part
  | key {label : Option String} {subject : Tree} {arms : List Arm} (ty : Ty) :
      Below (.switch label .int subject arms) (.cast ty subject)
  | routine {method : Method} {body : Tree} (h : method.body = some body) :
      Below (.localRoutine method) body

/-- The rank of a tree is above the ranks of everything lowered for it. In a region, a
cleanup may be lowered wherever its body is left. -/
inductive Ranked : Nat → Tree → Prop
  | node {n : Nat} {tree : Tree}
      (hregion : ∀ body catches cleanup, tree ≠ .guarded body catches (some cleanup))
      (h : ∀ part, Below tree part → Ranked n part) : Ranked (n + 1) tree
  | region {inner outer : Nat} {body cleanup : Tree} {catches : List Catch}
      (hbody : Ranked inner body) (hcatches : ∀ clause ∈ catches, Ranked inner clause.body)
      (hcleanup : Ranked outer cleanup) :
      Ranked (inner + outer + 1) (.guarded body catches (some cleanup))

/-- Only the parts of the tree are lowered for it. -/
def isDirect : Tree → Bool
  | forEach .. | switch .. | synchronized .. | localRoutine _ | guarded _ _ (some _) => false
  | _ => true

namespace Ranked

variable {n m : Nat} {tree : Tree}

theorem mono (h : Ranked n tree) (hm : n ≤ m) : Ranked m tree := by
  induction h generalizing m with
  | @node n tree hregion _ ih =>
    obtain ⟨m, rfl⟩ := Nat.exists_eq_add_of_le' hm
    exact .node hregion fun part hpart => ih part hpart (Nat.le_add_left n m)
  | @region inner outer body cleanup catches _ _ hcleanup ihbody ihcatches _ =>
    obtain ⟨m, rfl⟩ := Nat.exists_eq_add_of_le' hm
    rw [← Nat.add_assoc, ← Nat.add_assoc]
    have hinner : inner ≤ m + inner := Nat.le_add_left inner m
    exact .region (ihbody hinner) (fun clause hclause => ihcatches clause hclause hinner) hcleanup

theorem pos (h : Ranked n tree) : 0 < n := by
  cases h <;> exact Nat.succ_pos _

theorem child (h : Ranked (n + 1) tree) {part : Tree} (hpart : part ∈ tree.children) :
    Ranked n part := by
  cases h with
  | node _ h => exact h part (.child hpart)
  | @region inner outer body cleanup catches hbody hcatches hcleanup =>
    have hinner : inner ≤ inner + outer := Nat.le_add_right inner outer
    rcases List.mem_cons.mp hpart with rfl | hpart
    · exact hbody.mono hinner
    · rcases List.mem_append.mp hpart with hclause | hlast
      · obtain ⟨clause, hmem, rfl⟩ := List.mem_map.mp hclause
        exact (hcatches clause hmem).mono hinner
      · obtain rfl := List.mem_singleton.mp hlast
        exact hcleanup.mono (Nat.le_add_left outer inner)

theorem direct (hdirect : tree.isDirect = true) (h : ∀ part ∈ tree.children, Ranked n part) :
    Ranked (n + 1) tree := by
  refine .node (fun body catches cleanup htree => ?_) fun part hpart => ?_
  · subst htree
    cases hdirect
  · cases hpart with
    | child hpart => exact h part hpart
    | place hplace =>
      cases hplace with
      | part hpart => exact h part hpart
      | _ => cases hdirect
    | _ => cases hdirect

theorem leaf (hdirect : tree.isDirect = true) (h : tree.children = []) : Ranked 1 tree := by
  refine direct hdirect ?_
  rw [h]
  exact List.forall_mem_nil _

section Shapes

variable {label : Option String} {subject source body : Tree} {arms : List Arm}

theorem operand {operand : Tree} (hdirect : tree.isDirect = true) (h : tree.children = [operand])
    (hoperand : Ranked n operand) : Ranked (n + 1) tree := by
  refine direct hdirect ?_
  rw [h, List.forall_mem_singleton]
  exact hoperand

theorem operands {left right : Tree} (hdirect : tree.isDirect = true)
    (h : tree.children = [left, right]) (hleft : Ranked n left) (hright : Ranked n right) :
    Ranked (n + 1) tree := by
  refine direct hdirect ?_
  rw [h, List.forall_mem_cons, List.forall_mem_singleton]
  exact ⟨hleft, hright⟩

theorem intSwitch (hsubject : Ranked n subject)
    (harms : ∀ arm ∈ arms, (∀ value ∈ arm.value, Ranked (n + 1) value) ∧ Ranked (n + 1) arm.body) :
    Ranked (n + 2) (.switch label .int subject arms) := by
  refine .node (fun _ _ _ htree => by cases htree) fun part hpart => ?_
  cases hpart with
  | child hpart =>
    rcases List.mem_cons.mp hpart with rfl | hpart
    · exact hsubject.mono (Nat.le_succ n)
    · exact forall_trees_iff.mpr harms part hpart
  | place hplace =>
    cases hplace with
    | hashed hkind => exact absurd rfl hkind
  | key => exact operand rfl rfl hsubject

/-- A variable for the element, in front of the body. -/
theorem element {binder : String} {p : Prop} [Decidable p] {ty : Ty} {value : Tree} (hn : 4 ≤ n)
    (hvalue : Ranked 2 value) (hbody : Ranked n body) : Ranked (n + 1)
      (.block [.declareLocal binder ty (some (if p then value else .cast ty value)), body]) := by
  have hcast : Ranked 3 (if p then value else .cast ty value) := by
    split_ifs
    · exact hvalue.mono (by decide)
    · exact operand rfl rfl hvalue
  exact operands rfl rfl ((operand rfl rfl hcast).mono hn) hbody

theorem indexedLoop {binder array index : String} {ty arrayTy : Ty} (hn : 4 ≤ n)
    (hsource : Ranked n source) (hbody : Ranked n body) :
    Ranked (n + 2) (Lowering.indexedLoop label binder ty source body arrayTy array index) := by
  have hread (name : String) (ty : Ty) : Ranked 1 (.readLocal name ty) := leaf rfl rfl
  have hliteral (value : Int32) : Ranked 1 (.int value) := leaf rfl rfl
  have hlength : Ranked 2 (.arrayLength (.readLocal array arrayTy)) := operand rfl rfl (hread _ _)
  refine direct rfl (List.forall_mem_cons.mpr ⟨operand rfl rfl hsource, ?_⟩)
  refine List.forall_mem_cons.mpr ⟨(operand rfl rfl (hliteral 0)).mono (by omega), ?_⟩
  refine List.forall_mem_cons.mpr
    ⟨(operands rfl rfl ((hread index Ty.int).mono (by decide)) hlength).mono (by omega), ?_⟩
  refine List.forall_mem_cons.mpr
    ⟨element hn (operands rfl rfl (hread array arrayTy) (hread index Ty.int)) hbody, ?_⟩
  refine List.forall_mem_singleton.mpr ?_
  exact (operand rfl rfl (operands rfl rfl (hread index Ty.int) (hliteral 1))).mono (by omega)

theorem iteratorLoop {binder iterator : String} {ty : Ty} (hn : 4 ≤ n)
    (hsource : Ranked n source) (hbody : Ranked n body) :
    Ranked (n + 3) (Lowering.iteratorLoop label binder ty source body iterator) := by
  have hcall (method : Signature) : Ranked 2 (.invoke .interface Ty.iterator method
      (some (.readLocal iterator Ty.iterator)) []) := operand rfl rfl (leaf rfl rfl)
  refine direct rfl (List.forall_mem_cons.mpr ⟨operand rfl rfl (operand rfl rfl hsource), ?_⟩)
  refine List.forall_mem_cons.mpr ⟨(hcall _).mono (by omega), List.forall_mem_singleton.mpr ?_⟩
  exact (element hn (hcall _) hbody).mono (Nat.le_succ _)

theorem synchronized {lock : Tree} {ty : Ty} {name : String} (hn : 2 ≤ n) (hlock : Ranked n lock)
    (hbody : Ranked n body) : Ranked (n + 4)
      (.block [.monitorEnter (.block [lock, .declareLocal name ty (some (.dup ty))]),
        .guarded body [] (some (.monitorExit (.readLocal name ty)))]) := by
  have hdeclare : Ranked 2 (.declareLocal name ty (some (.dup ty))) :=
    operand rfl rfl (leaf rfl rfl)
  have henter : Ranked (n + 2)
      (.monitorEnter (.block [lock, .declareLocal name ty (some (.dup ty))])) :=
    operand rfl rfl (operands rfl rfl hlock (hdeclare.mono hn))
  have hexit : Ranked 2 (.monitorExit (.readLocal name ty)) := operand rfl rfl (leaf rfl rfl)
  exact operands rfl rfl (henter.mono (Nat.le_succ _))
    (.region hbody (List.forall_mem_nil _) hexit)

end Shapes

end Ranked

end Tree

namespace Switch

variable {n count : Nat} {buckets : List Bucket}

/-- The values have the rank of boxed literals. -/
structure Candidate.Fits (n : Nat) (candidate : Candidate) : Prop where
  values : ∀ value ∈ candidate.values, value.Ranked 2
  body : candidate.body.Ranked n

/-- How much the comparisons of a candidate add to the rank of a bucket. -/
def Candidate.cost (candidate : Candidate) : Nat := candidate.values.length + 1

structure Bucket.Fits (n count : Nat) (bucket : Bucket) : Prop where
  candidates : ∀ candidate ∈ bucket.candidates, candidate.Fits n
  cost : (bucket.candidates.map Candidate.cost).sum ≤ count

theorem Bucket.Fits.mono {bucket : Bucket} {more : Nat} (h : bucket.Fits n count)
    (hmore : count ≤ more) : bucket.Fits n more :=
  ⟨h.candidates, h.cost.trans hmore⟩

theorem fits_addCandidate (h : ∀ bucket ∈ buckets, bucket.Fits n count) (hash : Int32)
    {candidate : Candidate} (hcandidate : candidate.Fits n) :
    ∀ bucket ∈ addCandidate buckets hash candidate, bucket.Fits n (count + candidate.cost) := by
  have hnew : Bucket.Fits n (count + candidate.cost) ⟨hash, [candidate]⟩ :=
    ⟨List.forall_mem_singleton.mpr hcandidate, by simp⟩
  have hmore {bucket : Bucket} (hbucket : bucket.Fits n count) :
      bucket.Fits n (count + candidate.cost) := hbucket.mono (Nat.le_add_right _ _)
  fun_induction addCandidate buckets hash candidate with
  | case1 => exact List.forall_mem_singleton.mpr hnew
  | case2 bucket rest =>
    obtain ⟨hbucket, hrest⟩ := List.forall_mem_cons.mp h
    refine List.forall_mem_cons.mpr ⟨⟨?_, ?_⟩, fun other hother => hmore (hrest other hother)⟩
    · exact List.forall_mem_append.mpr
        ⟨hbucket.candidates, List.forall_mem_singleton.mpr hcandidate⟩
    · have hcost := hbucket.cost
      simpa using hcost
  | case3 bucket rest =>
    exact List.forall_mem_cons.mpr ⟨hnew, fun other hother => hmore (h other hother)⟩
  | case4 bucket rest _ _ ih =>
    obtain ⟨hbucket, hrest⟩ := List.forall_mem_cons.mp h
    exact List.forall_mem_cons.mpr ⟨hmore hbucket, ih hrest⟩

/-- What the values under each hash cost together. -/
def costOf (entries : List (Int32 × List Tree)) : Nat :=
  (entries.map fun entry => entry.2.length + 1).sum

theorem costOf_addHashed (entries : List (Int32 × List Tree)) (hash : Int32) (value : Tree) :
    costOf (addHashed entries hash value) ≤ costOf entries + 2 := by
  fun_induction addHashed entries hash value with
  | case1 => exact Nat.le_refl 2
  | case2 => simp [costOf]; omega
  | case3 other values rest _ ih =>
    rw [costOf, List.map_cons, List.sum_cons]
    simp [costOf] at ih ⊢; omega

theorem costOf_byHash (hashed : List (Int32 × Tree)) :
    costOf (hashed.foldl (fun acc pair => addHashed acc pair.1 pair.2) []) ≤ 2 * hashed.length := by
  induction hashed using List.reverseRecOn with
  | nil => exact Nat.le_refl 0
  | append_singleton hashed pair ih =>
    rw [List.foldl_append, List.length_append]
    exact (costOf_addHashed _ _ _).trans (Nat.add_le_add_right ih 2)

theorem fits_addGroup (h : ∀ bucket ∈ buckets, bucket.Fits n count) {hashed : List (Int32 × Tree)}
    (hhashed : ∀ pair ∈ hashed, pair.2.Ranked 2) {body : Tree} (hbody : body.Ranked n) :
    ∀ bucket ∈ addGroup buckets hashed body, bucket.Fits n (count + 2 * hashed.length) := by
  have hvalues := forall_mem_byHash hhashed
  have hcost := costOf_byHash hashed
  unfold addGroup
  generalize 2 * hashed.length = more at hcost ⊢
  generalize hashed.foldl (fun acc pair => addHashed acc pair.1 pair.2) [] = entries
    at hvalues hcost
  induction entries generalizing buckets count more with
  | nil => exact fun bucket hbucket => (h bucket hbucket).mono (Nat.le_add_right _ _)
  | cons entry rest ih =>
    obtain ⟨hentry, hrest⟩ := List.forall_mem_cons.mp hvalues
    rw [costOf, List.map_cons, List.sum_cons] at hcost
    obtain ⟨more, rfl⟩ := Nat.exists_eq_add_of_le (Nat.le_of_add_right_le hcost)
    rw [← Nat.add_assoc]
    exact ih (fits_addCandidate h entry.1 ⟨hentry, hbody⟩) more hrest
      (Nat.le_of_add_le_add_left hcost)

theorem ranked_hashValues {seen seen' : List Literal} {values : List Tree}
    {hashed : List (Int32 × Tree)} (h : hashValues seen values = .ok (hashed, seen')) :
    (∀ pair ∈ hashed, pair.2.Ranked 2) ∧ hashed.length = values.length := by
  induction values generalizing seen hashed with
  | nil =>
    obtain ⟨rfl, _⟩ := Prod.mk.inj (Except.ok.inj h)
    exact ⟨List.forall_mem_nil _, rfl⟩
  | cons value rest ih =>
    obtain ⟨literal, hash, others, rfl, _, _, hrest, hfirst⟩ := hashValues_cons_eq_ok.mp h
    obtain ⟨hranked, hlength⟩ := ih hrest
    obtain rfl : hashed = _ := hfirst
    have hliteral : Tree.Ranked 1 (.literal literal) := .leaf rfl rfl
    have hargument : (argument (.literal literal)).Ranked 2 := by
      unfold argument
      split
      · exact .operand rfl rfl hliteral
      · exact hliteral.mono (by decide)
    exact ⟨List.forall_mem_cons.mpr ⟨hargument, hranked⟩, by simp [hlength]⟩

theorem fits_bucketsOf {groups : List Group} {seen : List Literal} {buckets' : List Bucket}
    (h : ∀ bucket ∈ buckets, bucket.Fits n count) (hbodies : ∀ group ∈ groups, group.body.Ranked n)
    (hbuckets : bucketsOf buckets seen groups = .ok buckets') :
    ∀ bucket ∈ buckets', bucket.Fits n (count + 2 * (groups.flatMap Group.values).length) := by
  induction groups generalizing buckets count seen with
  | nil =>
    obtain rfl := Except.ok.inj hbuckets
    exact h
  | cons group rest ih =>
    obtain ⟨hbody, hrest⟩ := List.forall_mem_cons.mp hbodies
    obtain ⟨⟨hashed, seen'⟩, hhashed, hbuckets⟩ := bind_eq_ok.mp hbuckets
    obtain ⟨hranked, hlength⟩ := ranked_hashValues hhashed
    have hfits := ih (fits_addGroup h hranked hbody) hrest hbuckets
    rw [List.flatMap_cons, List.length_append, ← hlength, Nat.mul_add, ← Nat.add_assoc]
    exact hfits

theorem ranked_groupArms (pending : List Tree) (arms : List Arm) (hn : 0 < n)
    (h : ∀ arm ∈ arms, arm.body.Ranked n) :
    (∀ group ∈ (groupArms pending arms).1, group.body.Ranked n) ∧
      (∀ body ∈ (groupArms pending arms).2, body.Ranked n) ∧
      ((groupArms pending arms).1.flatMap Group.values).length ≤ pending.length + arms.length := by
  have hleave : Tree.Ranked n (.breakTo none) := (Tree.Ranked.leaf rfl rfl).mono hn
  induction arms generalizing pending with
  | nil =>
    cases pending with
    | nil => simp [groupArms]
    | cons value rest => simpa [groupArms] using hleave
  | cons arm rest ih =>
    obtain ⟨hbody, hrest⟩ := List.forall_mem_cons.mp h
    obtain ⟨hgroups, hdefaults, hlength⟩ := ih [] hrest
    obtain ⟨_ | value, body⟩ := arm
    · refine ⟨hgroups, List.forall_mem_cons.mpr ⟨hbody, hdefaults⟩, ?_⟩
      rw [List.length_nil] at hlength
      exact hlength.trans (by rw [List.length_cons]; omega)
    · rw [groupArms]
      split_ifs
      · simpa [Nat.add_assoc, Nat.add_comm 1] using ih (pending ++ [value]) hrest
      · refine ⟨List.forall_mem_cons.mpr ⟨hbody, hgroups⟩, hdefaults, ?_⟩
        simp at hlength ⊢
        omega

section Chain

variable {equals : Tree → Tree} (hequals : ∀ value, value.Ranked 2 → (equals value).Ranked 3)

include hequals

theorem ranked_foldl_or {m : Nat} {values : List Tree} {left : Tree} (hm : 3 ≤ m)
    (hleft : left.Ranked m) (h : ∀ value ∈ values, value.Ranked 2) :
    (values.foldl (fun left value => .logical .or left (equals value)) left).Ranked
      (m + values.length) := by
  induction values generalizing left m with
  | nil => exact hleft
  | cons value rest ih =>
    obtain ⟨hvalue, hrest⟩ := List.forall_mem_cons.mp h
    rw [List.length_cons, Nat.add_comm rest.length, ← Nat.add_assoc]
    exact ih (by omega) (.operands rfl rfl hleft ((hequals value hvalue).mono hm)) hrest

theorem ranked_anyEqual {values : List Tree} (h : ∀ value ∈ values, value.Ranked 2) :
    (anyEqual equals values).Ranked (3 + values.length) := by
  cases values with
  | nil => exact (Tree.Ranked.leaf rfl rfl).mono (by decide)
  | cons value rest =>
    obtain ⟨hvalue, hrest⟩ := List.forall_mem_cons.mp h
    exact (ranked_foldl_or hequals (Nat.le_refl 3) (hequals value hvalue) hrest).mono (by simp)

theorem ranked_chain {candidates : List Candidate} (hn : 4 ≤ n)
    (h : ∀ candidate ∈ candidates, candidate.Fits n) :
    (chain equals candidates).Ranked (n + 1 + (candidates.map Candidate.cost).sum) := by
  have hredirect : Tree.Ranked 1 .redirect := .leaf rfl rfl
  have hblock {candidate : Candidate} (hcandidate : candidate.Fits n) :
      Tree.Ranked (n + 1) (.block [candidate.body, .redirect]) :=
    .operands rfl rfl hcandidate.body (hredirect.mono (by omega))
  fun_induction chain equals candidates with
  | case1 => exact hredirect.mono (by omega)
  | case2 last =>
    have hlast := List.forall_mem_singleton.mp h
    have htest := ranked_anyEqual hequals hlast.values
    rw [List.map_singleton, List.sum_singleton, Candidate.cost, ← Nat.add_assoc]
    exact .operands rfl rfl (htest.mono (by omega)) ((hblock hlast).mono (by omega))
  | case3 candidate rest _ ih =>
    obtain ⟨hfirst, hrest⟩ := List.forall_mem_cons.mp h
    have htest : (Tree.not (anyEqual equals candidate.values)).Ranked _ :=
      .operand rfl rfl (ranked_anyEqual hequals hfirst.values)
    rw [List.map_cons, List.sum_cons, Candidate.cost, Nat.add_right_comm _ 1, ← Nat.add_assoc]
    refine .direct rfl (List.forall_mem_cons.mpr ⟨htest.mono (by omega), ?_⟩)
    exact List.forall_mem_cons.mpr ⟨(ih hrest).mono (by omega),
      List.forall_mem_singleton.mpr ((hblock hfirst).mono (by omega))⟩

end Chain

/-- Copies of a body do not count, only how many values there are. -/
theorem ranked_hashed {kind : SwitchKind} {label : Option String} {subject tree : Tree}
    {arms : List Arm} {ty : Ty} {name : String} (hn : 4 ≤ n) (hsubject : subject.Ranked n)
    (harms : ∀ arm ∈ arms, arm.body.Ranked n)
    (h : hashed kind label subject arms ty name = .ok tree) :
    tree.Ranked (n + 2 * arms.length + 3) := by
  obtain ⟨hbodies, hdefaults, hlength⟩ := ranked_groupArms [] arms (by omega : 0 < n) harms
  obtain ⟨buckets, hbuckets, h⟩ := bind_eq_ok.mp h
  obtain rfl := Except.ok.inj h
  have hfits : ∀ bucket ∈ buckets, bucket.Fits n (0 + 2 * _) :=
    fits_bucketsOf (List.forall_mem_nil _) hbodies hbuckets
  have hread : Tree.Ranked 1 (.readLocal name ty) := .leaf rfl rfl
  have hequals (owner : Ty) (value : Tree) (hvalue : value.Ranked 2) : Tree.Ranked 3
      (.invoke .virtual owner ⟨"equals", Ty.bool, [Ty.root]⟩ (some (.readLocal name ty)) [value]) :=
    .operands rfl rfl (hread.mono (by decide)) hvalue
  have hdispatch : Tree.Ranked n (.invoke .virtual (if kind = .text then Ty.text else Ty.root)
      ⟨"hashCode", Ty.int, []⟩ (some (.readLocal name ty)) []) :=
    (Tree.Ranked.operand rfl rfl hread).mono (by omega)
  refine .operands rfl rfl ((Tree.Ranked.operand rfl rfl hsubject).mono (by omega))
    (.intSwitch (hdispatch.mono (Nat.le_add_right n (2 * arms.length))) ?_)
  refine List.forall_mem_append.mpr ⟨List.forall_mem_map.mpr fun bucket hbucket => ?_,
    List.forall_mem_map.mpr fun body hbody => ?_⟩
  · have hbucket := hfits bucket hbucket
    have hcost := hbucket.cost
    rw [List.length_nil] at hlength
    refine ⟨fun value hvalue => ?_, (ranked_chain (hequals _) hn hbucket.candidates).mono (by omega)⟩
    obtain rfl : _ = value := Option.some.inj hvalue
    exact (Tree.Ranked.leaf rfl rfl).mono (by omega)
  · exact ⟨fun _ hvalue => (Option.not_mem_none _ hvalue).elim,
      (hdefaults body hbody).mono (by omega)⟩

end Switch

namespace Tree

variable {n : Nat} {label : Option String} {subject source body : Tree} {arms : List Arm}

theorem Ranked.forEach {binder : String} {ty : Ty} {iteration : Iteration} (hn : 4 ≤ n)
    (hsource : Ranked n source) (hbody : Ranked n body) :
    Ranked (n + 4) (.forEach label binder ty iteration source body) := by
  refine .node (fun _ _ _ htree => by cases htree) fun part hpart => ?_
  cases hpart with
  | child hpart =>
    have hparts := List.forall_mem_cons.mpr ⟨hsource, List.forall_mem_singleton.mpr hbody⟩
    exact (hparts part hpart).mono (Nat.le_add_right n 3)
  | place hplace =>
    cases hplace with
    | indexed => exact (indexedLoop hn hsource hbody).mono (Nat.le_succ _)
    | iterator => exact iteratorLoop hn hsource hbody

theorem ranked_ordinals {env : Env} {s : State} {ordinals : List Arm}
    (h : List.Forall₂ (OrdinalArm env s) arms ordinals) (hn : 0 < n)
    (harms : ∀ arm ∈ arms, (∀ value ∈ arm.value, Ranked n value) ∧ Ranked n arm.body) :
    ∀ arm ∈ ordinals, (∀ value ∈ arm.value, Ranked n value) ∧ Ranked n arm.body := by
  induction h with
  | nil => exact List.forall_mem_nil _
  | cons harm _ ih =>
    obtain ⟨hfirst, hrest⟩ := List.forall_mem_cons.mp harms
    refine List.forall_mem_cons.mpr ⟨?_, ih hrest⟩
    cases harm with
    | otherwise => exact hfirst
    | constant =>
      refine ⟨?_, hfirst.2⟩
      rintro _ ⟨⟩
      exact (Ranked.leaf rfl rfl).mono hn

theorem Ranked.switch {kind : SwitchKind} (hn : 4 ≤ n) (hsubject : Ranked n subject)
    (harms : ∀ part ∈ arms.flatMap ArmOf.trees, Ranked n part) :
    Ranked (n + 2 * arms.length + 4) (.switch label kind subject arms) := by
  refine .node (fun _ _ _ htree => by cases htree) fun part hpart => ?_
  cases hpart with
  | child hpart =>
    exact (List.forall_mem_cons.mpr ⟨hsubject, harms⟩ part hpart).mono (by omega)
  | place hplace =>
    cases hplace with
    | ordinals hruns =>
      obtain ⟨hordinals, _⟩ := Derives.mapM_read Derives.ordinalArm hruns
      have harms := ranked_ordinals hordinals (by omega) (forall_trees_iff.mp harms)
      refine (intSwitch (Ranked.operand rfl rfl hsubject) fun arm harm => ?_).mono (by omega)
      obtain ⟨hvalue, hbody⟩ := harms arm harm
      exact ⟨fun value h => (hvalue value h).mono (by omega), hbody.mono (by omega)⟩
    | hashed _ hhashed =>
      exact Switch.ranked_hashed hn hsubject (fun arm harm => (forall_trees_iff.mp harms arm harm).2)
        hhashed
  | key => exact (Ranked.operand rfl rfl hsubject).mono (by omega)

theorem Ranked.synchronizedTree {lock : Tree} (hn : 2 ≤ n) (hlock : Ranked n lock)
    (hbody : Ranked n body) : Ranked (n + 5) (.synchronized lock body) := by
  refine .node (fun _ _ _ htree => by cases htree) fun part hpart => ?_
  cases hpart with
  | child hpart =>
    have hparts := List.forall_mem_cons.mpr ⟨hlock, List.forall_mem_singleton.mpr hbody⟩
    exact (hparts part hpart).mono (Nat.le_add_right n 4)
  | place hplace =>
    cases hplace with
    | synchronized => exact synchronized hn hlock hbody

theorem size_pos (tree : Tree) : 0 < tree.size :=
  Nat.zero_lt_of_lt (sizeList_children_lt tree)

theorem length_le_sizeArms (arms : List Arm) : arms.length ≤ sizeArms arms := by
  induction arms with
  | nil => exact Nat.le_refl 0
  | cons arm rest ih =>
    have hpos := arm.body.size_pos
    rw [List.length_cons, sizeArms, sizeArm]
    omega

/-- All arms but one take a place of their own beside each part of it. -/
theorem size_add_length_le {part : Tree} (h : part ∈ arms.flatMap ArmOf.trees) :
    part.size + arms.length ≤ sizeArms arms + 1 := by
  induction arms with
  | nil => cases h
  | cons arm rest ih =>
    have hpos := arm.body.size_pos
    have hlength := length_le_sizeArms rest
    rw [List.length_cons, sizeArms, sizeArm]
    rw [List.flatMap_cons] at h
    rcases List.mem_append.mp h with hpart | hpart
    · rcases List.mem_append.mp hpart with hvalue | hbody
      · rw [Option.mem_toList.mp hvalue, sizeOption]
        omega
      · rw [List.mem_singleton.mp hbody]
        omega
    · have hrest := ih hpart
      omega

/-- The rank of a tree is at most eight times its size. -/
theorem ranked (tree : Tree) : tree.Ranked (8 * tree.size) := by
  induction hsize : tree.size using Nat.strong_induction_on generalizing tree with
  | _ size ih =>
    subst hsize
    have hpart {part : Tree} {n : Nat} (hsize : part.size < tree.size) (hn : 8 * part.size ≤ n) :
        part.Ranked n := (ih part.size hsize part rfl).mono hn
    have hchild {n : Nat} (hn : 8 * (tree.size - 1) ≤ n) (part : Tree) (h : part ∈ tree.children) :
        part.Ranked n := by
      have hlt := size_lt_of_mem_children h
      exact hpart hlt (by omega)
    have hpos := tree.size_pos
    by_cases hdirect : tree.isDirect = true
    · exact (Ranked.direct hdirect (hchild le_rfl)).mono (by omega)
    · cases tree with
      | forEach label binder ty iteration source body =>
        have hparts := hchild (Nat.le_add_right _ 4)
        exact (Ranked.forEach (Nat.le_add_left 4 _) (hparts source (by simp [children]))
          (hparts body (by simp [children]))).mono (by omega)
      | switch label kind subject arms =>
        have hlength := length_le_sizeArms arms
        have hsubject := subject.size_pos
        have hsize : (switch label kind subject arms).size = 1 + subject.size + sizeArms arms := rfl
        refine (Ranked.switch (n := 8 * (subject.size + sizeArms arms - arms.length)) (by omega)
          (hpart (by omega) (by omega)) fun part harm => ?_).mono (by omega)
        have hle := size_add_length_le harm
        exact hpart (by omega) (by omega)
      | synchronized lock body =>
        have hparts := hchild (Nat.le_add_right _ 2)
        exact (Ranked.synchronizedTree (Nat.le_add_left 2 _) (hparts lock (by simp [children]))
          (hparts body (by simp [children]))).mono (by omega)
      | localRoutine method =>
        obtain ⟨modifiers, name, params, result, body⟩ := method
        refine (Ranked.node (n := 8 * sizeOption body) (fun _ _ _ htree => by cases htree)
          fun part hbelow => ?_).mono ?_
        · cases hbelow with
          | child hchild => cases hchild
          | place hplace => cases hplace
          | routine hbody =>
            obtain rfl : body = some part := hbody
            exact hpart (Nat.lt_one_add_iff.mpr le_rfl) le_rfl
        · simp only [size, sizeMethod]
          omega
      | guarded body catches cleanup? =>
        cases cleanup? with
        | none => exact absurd rfl hdirect
        | some cleanup =>
          have hinner (part : Tree) (h : part ∈ (guarded body catches none).children) :
              part.Ranked (8 * (body.size + sizeCatches catches)) := by
            have hlt := size_lt_of_mem_children h
            simp only [size, sizeOption] at hlt hpart
            exact hpart (by omega) (by omega)
          have hcleanup : cleanup.Ranked (8 * cleanup.size) :=
            hpart (size_lt_of_mem_children (by simp [children])) le_rfl
          refine (Ranked.region (hinner body List.mem_cons_self) (fun clause hclause => ?_)
            hcleanup).mono (by simp only [size, sizeOption]; omega)
          exact hinner clause.body (by simpa [children] using .inr ⟨clause, hclause, rfl⟩)
      | _ => exact absurd rfl hdirect

end Tree

theorem Fault.ne_unsettled (fault : Fault) (h : fault.isOrdinary = true) (kind : Tree.Kind) :
    fault ≠ .unsettled kind := by
  rintro rfl
  cases h

theorem Fault.unboundLabel_ne_unsettled (label : Label) (kind : Tree.Kind) :
    Fault.unboundLabel label.id ≠ .unsettled kind := by
  intro h
  cases h

/-- Both lowerings have the same settings, and do not fail for nesting too deep. -/
def Lower.Comparison.settled (env : Env) : Comparison env :=
  .within (fun fault => ∀ kind, fault ≠ .unsettled kind) Fault.ne_unsettled
    Fault.unboundLabel_ne_unsettled

/-- The cleanups around the code. -/
def Pending (bodies : List Tree) (_ : Flows) (cleanups : List Cleanup) : Prop :=
  cleanups.map Cleanup.body = bodies

/-- The tree and the cleanups around it have ranks up to this sum. -/
def RankedWithin (n : Nat) (bodies : List Tree) (tree : Tree) : Prop :=
  ∃ rank ranks, tree.Ranked rank ∧ List.Forall₂ Tree.Ranked ranks bodies ∧ rank + ranks.sum ≤ n

section Step

variable {env : Env} {recur recur' : Recur} {n rank : Nat} {ranks : List Nat} {bodies : List Tree}

/-- A cleanup that is copied has only the ones around it left. -/
theorem rankedWithin_copy (h : List.Forall₂ Tree.Ranked ranks bodies) {index : Nat} {body : Tree}
    {rest : List Tree} (hbody : bodies.drop index = body :: rest) :
    RankedWithin ranks.sum (bodies.take index) body := by
  have hsum : (ranks.take index).sum + (ranks.drop index).sum = ranks.sum := by
    rw [← List.sum_append, List.take_append_drop]
  have hdrop := List.forall₂_drop index h
  rw [hbody] at hdrop
  cases hcosts : ranks.drop index with
  | nil => cases hcosts ▸ hdrop
  | cons cost costs =>
    rw [hcosts] at hdrop hsum
    rw [List.sum_cons] at hsum
    cases hdrop with
    | cons hcost _ => exact ⟨cost, _, hcost, List.forall₂_take index h, by omega⟩

/-- Both sides agree on what is ranked lower. -/
def AgreeBelow (env : Env) (recur recur' : Recur) (n : Nat) : Prop :=
  ∀ bodies tree, RankedWithin n bodies tree →
    Agrees (.settled env) (Pending bodies) (recur tree) (recur' tree)

theorem RankedWithin.mono {m : Nat} {tree : Tree} (h : RankedWithin n bodies tree) (hm : n ≤ m) :
    RankedWithin m bodies tree := by
  obtain ⟨rank, ranks, hrank, hranks, hn⟩ := h
  exact ⟨rank, ranks, hrank, hranks, hn.trans hm⟩

theorem AgreeBelow.inlineCleanup (h : AgreeBelow env recur recur' n)
    (hranks : List.Forall₂ Tree.Ranked ranks bodies) (hn : ranks.sum ≤ n) (index : Nat) :
    Agrees (.settled env) (Pending bodies) (Lowering.inlineCleanup recur index)
      (Lowering.inlineCleanup recur' index) := by
  change Agrees _ _ (setAside index (Lowering.copyFirst recur))
    (setAside index (Lowering.copyFirst recur'))
  refine .setAside index fun {flows cleanups} hpending => ⟨Pending (bodies.take index), ?_, ?_⟩
  · rw [Pending, List.map_take, hpending]
  · cases hcleanups : cleanups.drop index with
    | nil => exact fun _ _ => ⟨rfl, rfl, rfl⟩
    | cons cleanup rest =>
      have hbody : bodies.drop index = cleanup.body :: rest.map Cleanup.body := by
        rw [← hpending, ← List.map_drop, hcleanups, List.map_cons]
      have hagrees := h _ _ ((rankedWithin_copy hranks hbody).mono hn)
      exact fun s hs => hagrees.inStatement.bracket_apply _ _ hs fun _ => .intro

theorem AgreeBelow.related (h : AgreeBelow env recur recur' n)
    (hranks : List.Forall₂ Tree.Ranked ranks bodies) (hn : rank + ranks.sum ≤ n) :
    Recur.Related (agreeing (.settled env) (Pending bodies) fun _ => id)
      (fun tree tree' => tree = tree' ∧ tree.Ranked rank) recur recur' where
  value := by
    rintro tree _ ⟨rfl, hrank⟩
    exact (h bodies tree ⟨rank, ranks, hrank, hranks, hn⟩).inExpression
  statement := by
    rintro tree _ ⟨rfl, hrank⟩
    exact (h bodies tree ⟨rank, ranks, hrank, hranks, hn⟩).inStatement
  cleanup := h.inlineCleanup hranks (by omega)
  type := by
    rintro tree _ ⟨rfl, _⟩
    exact (agreeing _ _ _).resolve _

/-- A region with a cleanup. What is inside it has the cleanup around it, too. -/
theorem AgreeBelow.guarded {inner outer : Nat} {body cleanup : Tree} {catches : List Catch}
    (h : AgreeBelow env recur recur' n) (hranks : List.Forall₂ Tree.Ranked ranks bodies)
    (hn : inner + outer + ranks.sum ≤ n) (hbody : body.Ranked inner)
    (hcatches : ∀ clause ∈ catches, clause.body.Ranked inner) (hcleanup : cleanup.Ranked outer) :
    Agrees (.settled env) (Pending bodies)
      (Lowering.guarded recur body catches (some cleanup))
      (Lowering.guarded recur' body catches (some cleanup)) := by
  have hinside : List.Forall₂ Tree.Ranked (ranks ++ [outer]) (bodies ++ [cleanup]) :=
    List.rel_append hranks (.cons hcleanup .nil)
  have hsum : (ranks ++ [outer]).sum = ranks.sum + outer := by simp
  have hrelated := h.related hinside (show inner + _ ≤ n by omega)
  have hregion (start stop exit : Label) (index : Nat) :=
    hrelated.region start stop exit index ⟨rfl, hbody⟩
      (Recur.Related.matches_self plain_agreeing fun clause hclause =>
        ⟨rfl, hcatches clause hclause⟩)
  refine (h.related hranks (show outer + ranks.sum ≤ n by omega)).guardedWith hregion
    (fun {first second} hagrees => ?_) fun name _ => plain_agreeing.declare name
  have hpushed {flows : Flows} {cleanups : List Cleanup} (hpending : Pending bodies flows cleanups) :
      Pending (bodies ++ [cleanup]) flows (cleanups ++ [⟨cleanup, flows.length⟩]) := by
    rw [Pending, List.map_append, hpending]
    rfl
  have hcode : (agreeing (.settled env) (Pending bodies) fun _ => id).Rel
      (inCleanup cleanup first) (inCleanup cleanup second) :=
    Agrees.inCleanup cleanup hagrees hpushed
  intro next next' hnext
  refine Congruence.bind _ hcode fun region hyields =>
    hnext region region ⟨rfl, Recur.Related.rel_self fun pending hpending => ⟨rfl, ?_⟩⟩
  rw [Agrees.body_pending hagrees hpushed hyields pending hpending]
  exact hcleanup

/-- The step from what is below a tree to the tree. -/
theorem AgreeBelow.tree (hbridges : env.options.bridges = false)
    (h : AgreeBelow env recur recur' n) {node : Tree} (hnode : RankedWithin (n + 1) bodies node) :
    Agrees (.settled env) (Pending bodies) (Lowering.tree recur node)
      (Lowering.tree recur' node) := by
  obtain ⟨rank, ranks, hrank, hranks, hn⟩ := hnode
  obtain ⟨rank, rfl⟩ := Nat.exists_eq_add_of_le' hrank.pos
  have hrelated := h.related hranks (show rank + ranks.sum ≤ n by omega)
  have hplace (part : Tree) (hpart : Recur.Related.Becomes node part) :
      Agrees (.settled env) (Pending bodies) (recur part) (recur' part) := by
    cases hrank with
    | node _ hbelow => exact h _ _ ⟨rank, ranks, hbelow part (.place hpart), hranks, by omega⟩
    | region => cases hpart
  have hbridged (access use : Tree) (huse : Yields env (fun s => Pending bodies s.flows s.cleanups)
      (bridged access) (some use)) : False := by
    obtain ⟨s, s', _, huse⟩ := huse
    have hbridged := runs_bridged.mp huse
    rw [State.bridged, hbridges] at hbridged
    cases hbridged
  refine hrelated.tree_self plain_agreeing ⟨?_, ?_, ?_, ?_, ?_⟩ (fun ty => Agrees.discard ty) hplace
    (fun access use _ huse => (hbridged access use huse).elim) ?_
  · rintro tree ⟨_, htree⟩ child hchild
    obtain ⟨k, rfl⟩ := Nat.exists_eq_add_of_le' htree.pos
    exact ⟨rfl, (htree.child hchild).mono (Nat.le_succ k)⟩
  · exact fun child hchild => ⟨rfl, hrank.child hchild⟩
  · rintro label subject arms rfl
    cases hrank with
    | node _ hbelow =>
      have hsubject := hbelow _ (.key Ty.int)
      exact ⟨⟨rfl, (Tree.Ranked.leaf rfl rfl).mono hsubject.pos⟩,
        fun ty => ⟨rfl, hbelow _ (.key ty)⟩⟩
  · exact fun _ _ _ _ _ _ => ⟨rfl, rfl, rfl⟩
  · rintro body catches cleanup rfl
    cases hrank with
    | node hregion => exact absurd rfl (hregion body catches cleanup)
    | region hbody hcatches hcleanup =>
      exact h.guarded hranks (by omega) hbody hcatches hcleanup
  · rintro method rfl
    have hroutine (owner : Ty) (decl : RoutineDecl)
        (hdecl : decl ∈ RoutineDecl.ofMethod? owner method) :
        Agrees (.settled env) (Pending []) (Lowering.routineBody recur decl)
          (Lowering.routineBody recur' decl) := by
      obtain ⟨body, hbody, rfl⟩ := Option.map_eq_some_iff.mp hdecl
      cases hrank with
      | node _ hbelow =>
        exact (h.related .nil (show rank + 0 ≤ n by omega)).routineBody plain_agreeing _
          ⟨rfl, hbelow body (.routine hbody)⟩
    exact Agrees.localRoutine (Pending []) rfl hroutine

end Step

/-- Lower a tree with the standard handlers, which lower in another way what is nested
`depth` deep. -/
def Handlers.runOver (bottom : Recur) : Nat → Recur
  | 0 => bottom
  | depth + 1 => Lowering.tree (runOver bottom depth)

theorem Handlers.run_eq_runOver (depth : Nat) :
    standard.run depth = runOver (fun tree => throw (.unsettled tree.kind)) depth := by
  induction depth with
  | zero => rfl
  | succ depth ih =>
    funext tree
    rw [run_succ, ih, runOver]

theorem rankedWithin_depthBound (nest : Nest) (cleanups : List Cleanup) (tree : Tree) :
    RankedWithin (Handlers.depthBound nest cleanups tree.size) (cleanups.map Cleanup.body) tree := by
  have hranks : List.Forall₂ Tree.Ranked (cleanups.map fun cleanup => 8 * cleanup.body.size)
      (cleanups.map Cleanup.body) := by
    rw [List.forall₂_map_left_iff, List.forall₂_map_right_iff]
    exact List.forall₂_same.mpr fun cleanup _ => cleanup.body.ranked
  refine ⟨_, _, tree.ranked, hranks, ?_⟩
  have hsum : (cleanups.map fun cleanup => 8 * cleanup.body.size).sum =
      8 * cleanups.foldr (fun cleanup size => cleanup.body.size + size) 0 := by
    induction cleanups with
    | nil => rfl
    | cons cleanup rest ih =>
      have hrest := ih (List.forall₂_cons.mp hranks).2
      rw [List.map_cons, List.sum_cons, hrest, List.foldr_cons, Nat.mul_add]
  rw [hsum, ← Nat.mul_add, Handlers.depthBound]
  exact Nat.mul_le_mul (Nat.le_add_right 8 _) (Nat.le_succ _)

section Depth

variable {env : Env} {bodies : List Tree} {tree : Tree} {s : State}
  (hbridges : env.options.bridges = false)

include hbridges

theorem agreeBelow_runOver (bottom bottom' : Recur) {n depth depth' : Nat} (h : n ≤ depth)
    (h' : n ≤ depth') :
    AgreeBelow env (Handlers.runOver bottom depth) (Handlers.runOver bottom' depth') n := by
  induction n generalizing depth depth' with
  | zero =>
    rintro bodies tree ⟨rank, ranks, hrank, _, hn⟩
    have hpos := hrank.pos
    omega
  | succ n ih =>
    obtain ⟨depth, rfl⟩ := Nat.exists_eq_add_of_le' (Nat.le_of_add_left_le h)
    obtain ⟨depth', rfl⟩ := Nat.exists_eq_add_of_le' (Nat.le_of_add_left_le h')
    exact fun bodies tree => (ih (Nat.le_of_succ_le_succ h) (Nat.le_of_succ_le_succ h')).tree hbridges

/-- Nothing that is below the bound is ever reached. -/
theorem runOver_eq_process (bottom : Recur) {n depth : Nat} (hn : n ≤ depth)
    (hrank : RankedWithin n (s.cleanups.map Cleanup.body) tree) :
    Handlers.runOver bottom depth tree env s = Handlers.standard.process tree env s := by
  have hbound := rankedWithin_depthBound env.nest s.cleanups tree
  change _ = Handlers.standard.run (Handlers.depthBound env.nest s.cleanups tree.size) tree env s
  rw [Handlers.run_eq_runOver]
  generalize Handlers.depthBound env.nest s.cleanups tree.size = bound at hbound ⊢
  -- Both are compared with a run that is deep enough for the two bounds.
  have hdeep := agreeBelow_runOver hbridges bottom bottom hn (hn.trans (Nat.le_add_right depth bound))
    _ _ hrank s rfl
  have hdeep' := agreeBelow_runOver hbridges (fun tree => throw (.unsettled tree.kind)) bottom le_rfl
    (Nat.le_add_left bound depth) _ _ hbound s rfl
  exact (hdeep.eq fun _ _ => id).symm.trans (hdeep'.eq fun _ _ => id)

theorem agreeBelow_process (bottom : Recur) {n depth : Nat} (hn : n ≤ depth) :
    AgreeBelow env Handlers.standard.process (Handlers.runOver bottom depth) n := by
  rintro bodies tree hrank s rfl
  rw [← runOver_eq_process hbridges bottom hn hrank]
  exact agreeBelow_runOver hbridges bottom bottom hn hn _ _ hrank s rfl

end Depth

/-- Lowering ends without bridges, for every tree and whatever cleanups are around it. Up to
a bound that depends only on their sizes, handlers nest, and what would be lowered beyond it
does not matter; so there is no fault for nesting too deep. Each handler lowers what is below
its tree in the same way as this. -/
theorem process_terminates (env : Env) (hbridges : env.options.bridges = false) (tree : Tree)
    (s : State) :
    (∀ bottom depth, Handlers.depthBound env.nest s.cleanups tree.size ≤ depth →
      Handlers.runOver bottom depth tree env s = Handlers.standard.process tree env s) ∧
    Handlers.standard.process tree env s =
      Lowering.tree Handlers.standard.process tree env s ∧
    ∀ kind, (Handlers.standard.process tree env s).1 ≠ .error (.unsettled kind) := by
  have hbound := rankedWithin_depthBound env.nest s.cleanups tree
  have hover (bottom : Recur) {depth : Nat}
      (hdepth : Handlers.depthBound env.nest s.cleanups tree.size ≤ depth) :=
    runOver_eq_process hbridges bottom hdepth hbound
  refine ⟨fun bottom _ => hover bottom, ?_, fun kind hfault => ?_⟩
  · have hagrees := (agreeBelow_process hbridges Handlers.standard.process le_rfl).tree hbridges
      (hbound.mono (Nat.le_succ _)) s rfl
    rw [← hover Handlers.standard.process (Nat.le_succ _)]
    exact hagrees.eq fun _ _ => id
  · have hagrees := agreeBelow_process hbridges Handlers.standard.process le_rfl _ _ hbound s rfl
    generalize Handlers.standard.process tree env s = outcome at hagrees hfault
    obtain ⟨_, m⟩ := outcome
    cases hfault
    exact (hagrees.resolve_left id).2 kind rfl

/-- A return in a cleanup, in a region whose own cleanup returns. -/
theorem process_terminates_nested :
    let env : Env := ⟨.empty, { bridges := false }⟩
    let s := State.initial .empty .empty ⟨.object "demo.Main", "run", Ty.void, true⟩
    let tree := Tree.guarded (.ret none) [] (some (.guarded (.ret none) [] (some (.ret none))))
    env.options.bridges = false ∧
      Handlers.standard.process tree env s =
        Lowering.tree Handlers.standard.process tree env s ∧
      ∀ kind, (Handlers.standard.process tree env s).1 ≠ .error (.unsettled kind) :=
  ⟨rfl, (process_terminates ⟨.empty, { bridges := false }⟩ rfl _ _).2⟩

end StackLowering
