import StackLowering.Lowering.State
import StackLowering.Tree.Subtrees
/-!
Handlers lower one tree each. A handler is given the way to lower further
trees, so it can lower subtrees or hand back another tree in place of its own.
Handlers are chosen by the kind of the tree and can be replaced.
-/

namespace StackLowering

/-- How a handler lowers further trees. -/
abbrev Recur := Tree → Lower Unit

namespace Recur

/-- Lower a tree whose value the code around it consumes. -/
def value (recur : Recur) (tree : Tree) : Lower Unit := Lower.inExpression (recur tree)

/-- Lower a tree whose value is discarded. -/
def statement (recur : Recur) (tree : Tree) : Lower Unit := Lower.inStatement (recur tree)

/-- Lower a statement in a scope of its own. -/
def inScope (recur : Recur) (tree : Tree) : Lower Unit := Lower.withScope (recur.statement tree)

def values (recur : Recur) (trees : List Tree) : Lower Unit := trees.forM recur.value

def statements (recur : Recur) (trees : List Tree) : Lower Unit := trees.forM recur.statement

end Recur

abbrev Handler := Recur → Tree → Lower Unit

structure Handlers where
  find? : Tree.Kind → Option Handler

namespace Handlers

def empty : Handlers := ⟨fun _ => none⟩

def register (handlers : Handlers) (kind : Tree.Kind) (handler : Handler) : Handlers :=
  ⟨fun k => if k = kind then some handler else handlers.find? k⟩

def unregister (handlers : Handlers) (kind : Tree.Kind) : Handlers :=
  ⟨fun k => if k = kind then none else handlers.find? k⟩

def handles (handlers : Handlers) (kind : Tree.Kind) : Bool := (handlers.find? kind).isSome

/-- The kinds that have a handler. -/
def kinds (handlers : Handlers) : List Tree.Kind := Tree.Kind.all.filter handlers.handles

def display (handlers : Handlers) : String :=
  "Dispatcher \x7b kinds: [" ++ ", ".intercalate (handlers.kinds.map Tree.Kind.name) ++ "] \x7d"

/-- Lower a tree, with handlers nested at most `depth` deep. -/
def run (handlers : Handlers) : Nat → Recur
  | 0, tree => throw (.unsettled tree.kind)
  | depth + 1, tree =>
    match handlers.find? tree.kind with
    | some handler => handler (handlers.run depth) tree
    | none => throw (.unsupportedKind tree.kind tree)

/-- How deep handlers can nest below a tree of this size. A tree is replaced by
others of bounded height and by one more tree for each bridge it crosses, and a
transfer of control also lowers the cleanups around it. -/
def depthBound (nest : Nest) (cleanups : List Cleanup) (size : Nat) : Nat :=
  let cleanupSize := cleanups.foldr (fun cleanup size => cleanup.body.size + size) 0
  (8 + nest.memberCount) * (size + cleanupSize + 1)

/-- Lower a tree at the current expression depth. -/
def process (handlers : Handlers) : Recur := fun tree => do
  let depth := depthBound (← Lower.nest) (← get).cleanups tree.size
  handlers.run depth tree

end Handlers

namespace Handler

/-- Emits a return without a value, whatever the tree. -/
def returnVoid : Handler := fun _ _ => Lower.op .returnVoid

/-- Lowers the int 0 in place of the tree. -/
def zero : Handler := fun recur _ => recur (.int 0)

end Handler

end StackLowering
