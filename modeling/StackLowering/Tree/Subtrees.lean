import StackLowering.Tree
/-!
Subtrees, the size of a tree, the variable names in it, and the shapes that
matter to switches: trees that redirect to the default arm and trees that
emit nothing.
-/

namespace StackLowering

/-- The trees of an arm: its value, if any, and its body. -/
def ArmOf.trees {T : Type} (arm : ArmOf T) : List T :=
  arm.value.toList ++ [arm.body]

namespace Tree

/-- Direct subtrees from left to right. The body of a local routine belongs to
a routine of its own and is not among them. -/
def children : Tree → List Tree
  | literal _ | self | dup _ | nothing | readLocal .. | enumConstant .. => []
  | breakTo _ | continueTo _ | redirect | localRoutine _ => []
  | block trees => trees
  | declareLocal _ _ value => value.toList
  | readField _ _ _ receiver => receiver.toList
  | ret value => value.toList
  | assignLocal _ _ value | not value | cast _ value | instanceOf _ value => [value]
  | arrayLength value | newArray _ value | raise value => [value]
  | monitorEnter value | monitorExit value => [value]
  | writeField _ _ _ receiver value => receiver.toList ++ [value]
  | invoke _ _ _ receiver args => receiver.toList ++ args
  | create _ _ args => args
  | arith _ _ left right | compare _ left right | logical _ left right => [left, right]
  | arrayLoad array index _ => [array, index]
  | arrayStore array index value => [array, index, value]
  | branch condition body otherwise => condition :: body :: otherwise.toList
  | forLoop _ init condition update body => init ++ condition.toList ++ [body] ++ update
  | whileLoop _ condition body _ => [condition, body]
  | forEach _ _ _ _ source body => [source, body]
  | switch _ _ subject arms => subject :: arms.flatMap ArmOf.trees
  | synchronized lock body => [lock, body]
  | guarded body catches cleanup => body :: catches.map CatchOf.body ++ cleanup.toList

mutual

/-- Number of trees in a tree, those of local routines included. -/
def size : Tree → Nat
  | literal _ | self | dup _ | nothing | readLocal .. | enumConstant .. => 1
  | breakTo _ | continueTo _ | redirect => 1
  | localRoutine decl => 1 + sizeMethod decl
  | block trees => 1 + sizeList trees
  | declareLocal _ _ value => 1 + sizeOption value
  | readField _ _ _ receiver => 1 + sizeOption receiver
  | ret value => 1 + sizeOption value
  | assignLocal _ _ value | not value | cast _ value | instanceOf _ value => 1 + size value
  | arrayLength value | newArray _ value | raise value => 1 + size value
  | monitorEnter value | monitorExit value => 1 + size value
  | writeField _ _ _ receiver value => 1 + sizeOption receiver + size value
  | invoke _ _ _ receiver args => 1 + sizeOption receiver + sizeList args
  | create _ _ args => 1 + sizeList args
  | arith _ _ left right | compare _ left right | logical _ left right => 1 + size left + size right
  | arrayLoad array index _ => 1 + size array + size index
  | arrayStore array index value => 1 + size array + size index + size value
  | branch condition body otherwise => 1 + size condition + size body + sizeOption otherwise
  | forLoop _ init condition update body =>
    1 + sizeList init + sizeOption condition + size body + sizeList update
  | whileLoop _ condition body _ => 1 + size condition + size body
  | forEach _ _ _ _ source body => 1 + size source + size body
  | switch _ _ subject arms => 1 + size subject + sizeArms arms
  | synchronized lock body => 1 + size lock + size body
  | guarded body catches cleanup => 1 + size body + sizeCatches catches + sizeOption cleanup

def sizeOption : Option Tree → Nat
  | none => 0
  | some tree => size tree

def sizeList : List Tree → Nat
  | [] => 0
  | tree :: rest => size tree + sizeList rest

def sizeArm : ArmOf Tree → Nat
  | ⟨value, body⟩ => sizeOption value + size body

def sizeArms : List (ArmOf Tree) → Nat
  | [] => 0
  | arm :: rest => sizeArm arm + sizeArms rest

def sizeCatch : CatchOf Tree → Nat
  | ⟨_, _, body⟩ => size body

def sizeCatches : List (CatchOf Tree) → Nat
  | [] => 0
  | clause :: rest => sizeCatch clause + sizeCatches rest

def sizeMethod : MethodOf Tree → Nat
  | ⟨_, _, _, _, body⟩ => sizeOption body

end

theorem sizeList_append (xs ys : List Tree) :
    sizeList (xs ++ ys) = sizeList xs + sizeList ys := by
  induction xs with
  | nil => simp [sizeList]
  | cons x xs ih => simp [sizeList, ih, Nat.add_assoc]

theorem sizeList_toList (o : Option Tree) : sizeList o.toList = sizeOption o := by
  cases o <;> simp [sizeList, sizeOption]

theorem sizeList_arms (arms : List (ArmOf Tree)) :
    sizeList (arms.flatMap ArmOf.trees) = sizeArms arms := by
  induction arms with
  | nil => simp [sizeList, sizeArms]
  | cons arm rest ih =>
    obtain ⟨value, body⟩ := arm
    simp [List.flatMap_cons, sizeList_append, ih, sizeArms, sizeArm, ArmOf.trees,
      sizeList_toList, sizeList, Nat.add_assoc]

theorem sizeList_catches (catches : List (CatchOf Tree)) :
    sizeList (catches.map CatchOf.body) = sizeCatches catches := by
  induction catches with
  | nil => simp [sizeList, sizeCatches]
  | cons clause rest ih =>
    obtain ⟨ty, binder, body⟩ := clause
    simp [sizeList, sizeCatches, sizeCatch, ih]

theorem sizeList_children_lt (tree : Tree) : sizeList tree.children < tree.size := by
  cases tree <;>
    simp [children, size, sizeList, sizeList_append, sizeList_toList, sizeList_arms,
      sizeList_catches] <;>
    omega

/-- The variables a tree itself mentions: the one it reads, declares, assigns
or iterates with, or those its catch clauses bind. -/
def ownNames : Tree → List String
  | readLocal name _ | declareLocal name _ _ | assignLocal name _ _ => [name]
  | forEach _ binder _ _ _ _ => [binder]
  | guarded _ catches _ => catches.map CatchOf.binder
  | _ => []

/-- The names in a stack of trees still to be visited, topmost first. -/
def namesOf : List Tree → List String
  | [] => []
  | tree :: rest => tree.ownNames ++ namesOf (tree.children ++ rest)
termination_by stack => sizeList stack
decreasing_by
  have := sizeList_children_lt tree
  simp [sizeList_append, sizeList]
  omega

/-- Every variable name anywhere in the tree, in the order of a walk from left
to right. -/
def variableNames (tree : Tree) : List String :=
  namesOf [tree]

mutual

/-- The tree is a redirect to the default arm, or a block that ends in one. -/
def endsWithRedirect : Tree → Bool
  | redirect => true
  | block trees => lastRedirects trees
  | _ => false

def lastRedirects : List Tree → Bool
  | [] => false
  | tree :: rest => if rest.isEmpty then endsWithRedirect tree else lastRedirects rest

end

mutual

/-- The tree does nothing but redirect to the default arm. -/
def isPureRedirect : Tree → Bool
  | redirect => true
  | block trees => !trees.isEmpty && allPureRedirects trees
  | _ => false

def allPureRedirects : List Tree → Bool
  | [] => true
  | tree :: rest => isPureRedirect tree && allPureRedirects rest

end

mutual

/-- The tree emits no code. -/
def isEmpty : Tree → Bool
  | nothing => true
  | block trees => allEmpty trees
  | _ => false

def allEmpty : List Tree → Bool
  | [] => true
  | tree :: rest => isEmpty tree && allEmpty rest

end

mutual

/-- Control cannot run off the end of the tree. -/
def endsInTransfer : Tree → Bool
  | ret _ | raise _ => true
  | block trees => lastTransfers trees
  | _ => false

def lastTransfers : List Tree → Bool
  | [] => false
  | tree :: rest => if rest.isEmpty then endsInTransfer tree else lastTransfers rest

end

end Tree

end StackLowering
