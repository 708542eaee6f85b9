import StackLowering.Tree
/-!
Equality of trees by value: two trees are the same when they have the same
shape and the same literals, where floating-point literals are compared as
numbers.
-/

namespace StackLowering.Tree

mutual

def same : Tree → Tree → Bool
  | literal a, t => match t with
    | literal b => a.sameValue b
    | _ => false
  | self, t => t.kind == .self
  | dup a, t => match t with
    | dup b => a == b
    | _ => false
  | nothing, t => t.kind == .nothing
  | block as, t => match t with
    | block bs => sameList as bs
    | _ => false
  | readLocal n ty, t => match t with
    | readLocal n' ty' => n == n' && ty == ty'
    | _ => false
  | declareLocal n ty v, t => match t with
    | declareLocal n' ty' v' => n == n' && ty == ty' && sameOption v v'
    | _ => false
  | assignLocal n ty v, t => match t with
    | assignLocal n' ty' v' => n == n' && ty == ty' && same v v'
    | _ => false
  | readField o n ty r, t => match t with
    | readField o' n' ty' r' => o == o' && n == n' && ty == ty' && sameOption r r'
    | _ => false
  | writeField o n ty r v, t => match t with
    | writeField o' n' ty' r' v' =>
      o == o' && n == n' && ty == ty' && sameOption r r' && same v v'
    | _ => false
  | invoke k o m r as, t => match t with
    | invoke k' o' m' r' bs => k == k' && o == o' && m == m' && sameOption r r' && sameList as bs
    | _ => false
  | create ty ps as, t => match t with
    | create ty' ps' bs => ty == ty' && ps == ps' && sameList as bs
    | _ => false
  | enumConstant ty n, t => match t with
    | enumConstant ty' n' => ty == ty' && n == n'
    | _ => false
  | arith op ty l r, t => match t with
    | arith op' ty' l' r' => op == op' && ty == ty' && same l l' && same r r'
    | _ => false
  | compare op l r, t => match t with
    | compare op' l' r' => op == op' && same l l' && same r r'
    | _ => false
  | logical op l r, t => match t with
    | logical op' l' r' => op == op' && same l l' && same r r'
    | _ => false
  | not v, t => match t with
    | not v' => same v v'
    | _ => false
  | cast ty v, t => match t with
    | cast ty' v' => ty == ty' && same v v'
    | _ => false
  | instanceOf ty v, t => match t with
    | instanceOf ty' v' => ty == ty' && same v v'
    | _ => false
  | arrayLength v, t => match t with
    | arrayLength v' => same v v'
    | _ => false
  | arrayLoad a i ty, t => match t with
    | arrayLoad a' i' ty' => same a a' && same i i' && ty == ty'
    | _ => false
  | arrayStore a i v, t => match t with
    | arrayStore a' i' v' => same a a' && same i i' && same v v'
    | _ => false
  | newArray ty v, t => match t with
    | newArray ty' v' => ty == ty' && same v v'
    | _ => false
  | branch c b e, t => match t with
    | branch c' b' e' => same c c' && same b b' && sameOption e e'
    | _ => false
  | forLoop l i c u b, t => match t with
    | forLoop l' i' c' u' b' =>
      l == l' && sameList i i' && sameOption c c' && sameList u u' && same b b'
    | _ => false
  | whileLoop l c b f, t => match t with
    | whileLoop l' c' b' f' => l == l' && same c c' && same b b' && f == f'
    | _ => false
  | forEach l n ty i s b, t => match t with
    | forEach l' n' ty' i' s' b' =>
      l == l' && n == n' && ty == ty' && i == i' && same s s' && same b b'
    | _ => false
  | switch l k s as, t => match t with
    | switch l' k' s' bs => l == l' && k == k' && same s s' && sameArms as bs
    | _ => false
  | synchronized l b, t => match t with
    | synchronized l' b' => same l l' && same b b'
    | _ => false
  | guarded b cs f, t => match t with
    | guarded b' cs' f' => same b b' && sameCatches cs cs' && sameOption f f'
    | _ => false
  | raise v, t => match t with
    | raise v' => same v v'
    | _ => false
  | ret v, t => match t with
    | ret v' => sameOption v v'
    | _ => false
  | breakTo l, t => match t with
    | breakTo l' => l == l'
    | _ => false
  | continueTo l, t => match t with
    | continueTo l' => l == l'
    | _ => false
  | monitorEnter v, t => match t with
    | monitorEnter v' => same v v'
    | _ => false
  | monitorExit v, t => match t with
    | monitorExit v' => same v v'
    | _ => false
  | redirect, t => t.kind == .redirect
  | localRoutine d, t => match t with
    | localRoutine d' => sameMethod d d'
    | _ => false

def sameOption : Option Tree → Option Tree → Bool
  | none, o => o.isNone
  | some a, o => match o with
    | some b => same a b
    | none => false

def sameList : List Tree → List Tree → Bool
  | [], bs => bs.isEmpty
  | a :: as, bs => match bs with
    | b :: bs => same a b && sameList as bs
    | [] => false

def sameArm : ArmOf Tree → ArmOf Tree → Bool
  | ⟨v, b⟩, arm => sameOption v arm.value && same b arm.body

def sameArms : List (ArmOf Tree) → List (ArmOf Tree) → Bool
  | [], bs => bs.isEmpty
  | a :: as, bs => match bs with
    | b :: bs => sameArm a b && sameArms as bs
    | [] => false

def sameCatch : CatchOf Tree → CatchOf Tree → Bool
  | ⟨ty, n, b⟩, clause => ty == clause.ty && n == clause.binder && same b clause.body

def sameCatches : List (CatchOf Tree) → List (CatchOf Tree) → Bool
  | [], bs => bs.isEmpty
  | a :: as, bs => match bs with
    | b :: bs => sameCatch a b && sameCatches as bs
    | [] => false

def sameMethod : MethodOf Tree → MethodOf Tree → Bool
  | ⟨n, m, r, ps, b⟩, method =>
    n == method.name && m == method.modifiers && r == method.result && ps == method.params &&
      sameOption b method.body

end

end StackLowering.Tree
