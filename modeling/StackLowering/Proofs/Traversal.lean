import StackLowering.Proofs.Everywhere
/-!
The walk that collects the names in a tree. The children of a tree are what its
fields hold, field by field in the order of evaluation, and a walk with an
explicit stack lists the same names as the recursion over the children.
-/

namespace StackLowering.Tree

/-- The fields in which a tree holds others. -/
inductive Field where
  | receiver
  | left
  | right
  | array
  | index
  | length
  | init
  | condition
  | source
  | subject
  | lock
  | items
  | value
  | body
  | arms
  | otherwise
  | catches
  | update
  | cleanup
  /-- The body of a routine that is declared in place. -/
  | routine
deriving DecidableEq

/-- What a tree holds in a field. -/
def field : Tree → Field → List Tree
  | block trees, .items => trees
  | declareLocal _ _ value, .value | ret value, .value => value.toList
  | assignLocal _ _ value, .value | writeField _ _ _ _ value, .value => [value]
  | readField _ _ _ receiver, .receiver | writeField _ _ _ receiver _, .receiver => receiver.toList
  | invoke _ _ _ receiver _, .receiver => receiver.toList
  | invoke _ _ _ _ args, .items | create _ _ args, .items => args
  | arith _ _ left _, .left | compare _ left _, .left | logical _ left _, .left => [left]
  | arith _ _ _ right, .right | compare _ _ right, .right | logical _ _ right, .right => [right]
  | not value, .value | cast _ value, .value | instanceOf _ value, .value => [value]
  | arrayLength array, .array | arrayLoad array _ _, .array => [array]
  | arrayStore array _ _, .array => [array]
  | arrayLoad _ index _, .index | arrayStore _ index _, .index => [index]
  | arrayStore _ _ value, .value | raise value, .value => [value]
  | newArray _ length, .length => [length]
  | branch condition _ _, .condition | whileLoop _ condition _ _, .condition => [condition]
  | branch _ body _, .body | whileLoop _ _ body _, .body => [body]
  | branch _ _ otherwise, .otherwise => otherwise.toList
  | forLoop _ init _ _ _, .init => init
  | forLoop _ _ condition _ _, .condition => condition.toList
  | forLoop _ _ _ update _, .update => update
  | forLoop _ _ _ _ body, .body | forEach _ _ _ _ _ body, .body => [body]
  | forEach _ _ _ _ source _, .source => [source]
  | switch _ _ subject _, .subject => [subject]
  | switch _ _ _ arms, .arms => arms.flatMap fun arm => arm.value.toList ++ [arm.body]
  | synchronized lock _, .lock => [lock]
  | synchronized _ body, .body | guarded body _ _, .body => [body]
  | guarded _ catches _, .catches => catches.map CatchOf.body
  | guarded _ _ cleanup, .cleanup => cleanup.toList
  | monitorEnter value, .value | monitorExit value, .value => [value]
  | localRoutine decl, .routine => decl.body.toList
  | _, _ => []

/-- The fields in the order in which what they hold is evaluated. A routine that is
declared in place is not. -/
def Field.inOrder : List Field :=
  [receiver, left, right, array, index, length, init, condition, source, subject, lock, items,
    value, body, arms, otherwise, catches, update, cleanup]

theorem flatMap_field (tree : Tree) : Field.inOrder.flatMap tree.field = tree.children := by
  have htrees : ArmOf.trees = fun arm : Arm => arm.value.toList ++ [arm.body] := rfl
  cases tree <;> simp [Field.inOrder, field, children, htrees]

/-- The names of a tree itself, followed by those of its children from left to right. -/
def listing (tree : Tree) : List String :=
  tree.ownNames ++ tree.children.attach.flatMap fun ⟨part, _⟩ => part.listing
termination_by tree.size
decreasing_by exact size_lt_of_mem_children ‹_›

theorem listing_eq (tree : Tree) :
    tree.listing = tree.ownNames ++ tree.children.flatMap listing := by
  rw [listing, List.flatMap_subtype fun _ _ => rfl, List.unattach_attach]

theorem namesOf_eq_flatMap (stack : List Tree) : namesOf stack = stack.flatMap listing := by
  fun_induction namesOf stack with
  | case1 => rfl
  | case2 tree rest ih =>
    rw [ih, List.flatMap_append, List.flatMap_cons, listing_eq, List.append_assoc]

/-- One round of a walk: the tree on top of the stack, which is at its end, makes way
for its children, the last one below the others, and its own names are listed. -/
def visit : List Tree × List String → List Tree × List String
  | (stack, names) => match stack.getLast? with
    | some tree => (stack.dropLast ++ tree.children.reverse, names ++ tree.ownNames)
    | none => (stack, names)

theorem visit_cons (tree : Tree) (rest : List Tree) (names : List String) :
    visit ((tree :: rest).reverse, names) =
      ((tree.children ++ rest).reverse, names ++ tree.ownNames) := by
  simp [visit]

/-- The walk ends, with the names in the trees that were on the stack. -/
theorem exists_visit (stack : List Tree) (names : List String) :
    ∃ rounds, visit^[rounds] (stack.reverse, names) = ([], names ++ namesOf stack) := by
  fun_induction namesOf stack generalizing names with
  | case1 => exact ⟨0, by rw [List.append_nil]; rfl⟩
  | case2 tree rest ih =>
    obtain ⟨rounds, hrounds⟩ := ih (names ++ tree.ownNames)
    refine ⟨rounds + 1, ?_⟩
    rw [Function.iterate_succ_apply, visit_cons, hrounds, List.append_assoc]

/-- The walk ends and lists the names of the tree in pre-order, and the children
that it visits are what the fields of a tree hold, each field taken once and none
left out but the body of a routine that is declared in place. -/
theorem variableNames_preorder (tree : Tree) :
    (∃ rounds, visit^[rounds] ([tree], []) = ([], tree.variableNames)) ∧
      tree.variableNames = tree.listing ∧
      tree.children = Field.inOrder.flatMap tree.field ∧ Field.inOrder.Nodup ∧
      ∀ field, field ∈ Field.inOrder ↔ field ≠ .routine := by
  refine ⟨exists_visit [tree] [], ?_, tree.flatMap_field.symm, by decide, fun field => ?_⟩
  · rw [variableNames, namesOf_eq_flatMap, List.flatMap_singleton]
  · cases field <;> decide

end StackLowering.Tree
