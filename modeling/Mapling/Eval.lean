import Mapling.Arithmetic
import Mapling.Expr.Text
import Mapling.Value.Text

/-! # Evaluation

One evaluator serves programs with names and programs with addresses, under every pair of
policies. It works on a store; a failed evaluation leaves the store as it was when it failed.

The evaluator is given a number that bounds how deep its own recursion goes. When the number is
used up there is no outcome, neither a value nor an error; a larger number then gives one, or
the evaluation never ends. The depth limit of a machine is another matter: exceeding it is an
error like any other. -/

namespace Mapling

/-- A computation on the store: a value or an error and the store afterwards, or no outcome. -/
abbrev Eval (V L : Type) := ExceptT EvalError (StateT (Store V L) Option)

/-- How to evaluate an expression, given the machine and the environment. -/
abbrev Evaluator (V L : Type) (M : Type → Type := Eval V L) :=
  Machine → Env → Expr V L → M (Value V L)

/-- What evaluation does in a monad besides working on the store and failing. Whatever happens to
a slot happens here, so a monad can take note of it. -/
class EvalOps (V L : outParam Type) (M : Type → Type) where
  /-- No outcome. -/
  exhausted {α : Type} : M α
  /-- Run `act` and then change the store, whether it fails or not. -/
  andThen {α : Type} (act : M α) (change : Except EvalError α → Store V L → Store V L) : M α
  /-- Put a slot in a state. -/
  put (i : Nat) (x : Slot V L) : M Unit
  /-- Run `act`, which evaluates the suspension of a slot by need, and put the slot in the state
  that the result says. -/
  settle (i : Nat) (state : Except EvalError (Value V L) → Slot V L) (act : M (Value V L)) :
    M (Value V L)
  /-- Give the result of `act` to whoever accesses the slot. -/
  give (i : Nat) (act : M (Value V L)) : M (Value V L)
  /-- A frame that declares the names. -/
  newFrame (names : List String) : M Frame
  /-- A pair whose parts are in the given states. -/
  newPair (head tail : Slot V L) : M (Value V L)

namespace Eval

variable {V L : Type}

/-- Run `act` and then change the store, whether it fails or not. -/
def andThen {α : Type} (act : Eval V L α)
    (change : Except EvalError α → Store V L → Store V L) : Eval V L α :=
  ExceptT.mk do
    let r ← act.run
    modify (change r)
    return r

@[default_instance] instance : EvalOps V L (Eval V L) where
  exhausted := ExceptT.mk (fun _ => none)
  andThen := andThen
  put i x := modify (fun s => s.setSlot i x)
  settle i state act := andThen act (fun r s => s.setSlot i (state r))
  give _ act := act
  newFrame names := modifyGet (fun s => s.newFrame names)
  newPair head tail := modifyGet (fun s => s.newPair head tail)

variable {M : Type → Type} [Monad M] [EvalOps V L M] [MonadState (Store V L) M]
  [MonadExcept EvalError M]

/-- A result that does not depend on the store. -/
def ofExcept {α : Type} : Except EvalError α → M α
  | .ok a => pure a
  | .error e => throw e

/-- The text of a value, for a message. -/
def shown (n : Nat) (v : Value V L) : M String := do
  match v.text (← get) n with
  | some t => return t
  | none => EvalOps.exhausted

/-- Fail because a value is of the wrong kind. -/
def mismatch {α : Type} (n : Nat) (op : String) (v : Value V L) : M α := do
  throw (.typeMismatch op (← shown n v))

/-! ## Depth -/

/-- Go one level deeper, if the limit allows it. -/
def enter (m : Machine) : M Unit := do
  let d := (← get).depth m
  if d < m.config.maxDepth then modify (fun s => s.setDepth m (d + 1))
  else throw (.depthExceeded m.config.maxDepth)

/-- Run `act` one level deeper. -/
def nested {α : Type} (m : Machine) (act : M α) : M α := do
  enter m
  EvalOps.andThen act (fun _ s => s.setDepth m (s.depth m - 1))

/-! ## Slots -/

def resume (ev : Evaluator V L M) (s : Suspension V L) : M (Value V L) :=
  nested s.machine (ev s.machine s.env s.expr)

/-- The state of a slot after evaluating its suspension by need: a result is kept, a failure
leaves the suspension for another attempt. -/
def settled (s : Suspension V L) : Except EvalError (Value V L) → Slot V L
  | .ok v => .ready v
  | .error _ => .byNeed s

/-- The value of a slot, which the message of a failure calls `label`. -/
def force (ev : Evaluator V L M) (label : String) (i : Nat) : M (Value V L) := do
  match (← get).slot i with
  | .ready v => EvalOps.give i (return v)
  | .uninit | .forcing => throw (.forwardReference label)
  | .byName s => EvalOps.give i (resume ev s)
  | .byNeed s =>
    EvalOps.put i .forcing
    EvalOps.give i (EvalOps.settle i (settled s) (resume ev s))

def forceHead (ev : Evaluator V L M) (i : Nat) : M (Value V L) := force ev "pair head" i

/-- The second part of a pair, which has to be a list. -/
def forceTail (n : Nat) (ev : Evaluator V L M) (i : Nat) : M (Value V L) := do
  let v ← force ev "pair tail" i
  if v.isList then return v else throw (.notAList Prim.cons.name (← shown n v))

/-- The state of a slot bound to an expression. Literals, primitives and functions are evaluated
at once under every policy. -/
def defer (ev : Evaluator V L M) (m : Machine) (env : Env) (policy : Policy) (e : Expr V L) :
    M (Slot V L) := do
  if e.isImmediate then return .ready (← ev m env e)
  else match policy with
    | .value => return .ready (← ev m env e)
    | .name => return .byName ⟨e, env, m⟩
    | .need => return .byNeed ⟨e, env, m⟩

/-- Bind one expression after another. -/
def bindEach (ev : Evaluator V L M) (m : Machine) (env : Env) :
    List Binding → List (Expr V L) → M Unit
  | b :: bs, e :: es => do
    let x ← defer ev m env m.config.binding e
    EvalOps.put b.slot x
    bindEach ev m env bs es
  | _, _ => return ()

/-! ## Operators -/

/-- Equality of values that are not pairs: by content, and by identity for closures and
references. -/
def sameAtom : Value V L → Value V L → Bool
  | .int a, .int b => a == b
  | .bool a, .bool b => a == b
  | .null, .null => true
  | .unit, .unit => true
  | .prim p, .prim q => p == q
  | .closure i _, .closure j _ => i == j
  | .ref i, .ref j => i == j
  | _, _ => false

/-- Equality, given how to compare values that are not pairs. A pair equals itself; other pairs are
compared part by part, which evaluates the parts. -/
def equalsBy (atoms : Value V L → Value V L → M Bool) (ev : Evaluator V L M) :
    Nat → Value V L → Value V L → M Bool
  | 0, _, _ => EvalOps.exhausted
  | n + 1, .pair h t, .pair h' t' => do
    if h = h' ∧ t = t' then return true
    else
      let a ← forceHead ev h
      let b ← forceHead ev h'
      if ← equalsBy atoms ev n a b then
        let a ← forceTail n ev t
        let b ← forceTail n ev t'
        equalsBy atoms ev n a b
      else return false
  | _ + 1, v, w => atoms v w

abbrev equals (ev : Evaluator V L M) : Nat → Value V L → Value V L → M Bool :=
  equalsBy (fun v w => return sameAtom v w) ev

def unary (n : Nat) (op : UnaryOp) (v : Value V L) : M (Value V L) := do
  match op, v with
  | .neg, .int k => return .int (← ofExcept (negate k))
  | .not, .bool b => return .bool (!b)
  | .deref, .ref i => return (← get).cell i
  | .ref, v => modifyGet (fun s => s.newRef v)
  | op, v => mismatch n op.symbol v

def arithmetic (n : Nat) (op : BinaryOp) (v w : Value V L) : M (Value V L) := do
  match v, w with
  | .int a, .int b =>
    match ← ofExcept (op.onInts a b) with
    | .int k => return .int k
    | .bool b => return .bool b
  | .int _, w => mismatch n op.symbol w
  | v, _ => mismatch n op.symbol v

/-- `decisive` is the left operand that makes the right one irrelevant. -/
def logical (n : Nat) (ev : Evaluator V L M) (m : Machine) (env : Env) (op : BinaryOp)
    (decisive : Bool) (l r : Expr V L) : M (Value V L) := do
  match ← ev m env l with
  | .bool b =>
    if b = decisive then return .bool b
    else match ← ev m env r with
      | .bool b => return .bool b
      | v => mismatch n op.symbol v
  | v => mismatch n op.symbol v

def assign (n : Nat) (ev : Evaluator V L M) (m : Machine) (env : Env) (l r : Expr V L) :
    M (Value V L) := do
  match ← ev m env l with
  | .ref i =>
    let v ← ev m env r
    modify (fun s => s.setCell i v)
    return .unit
  | v => mismatch n BinaryOp.assign.symbol v

/-- An operator, given how to compare two values. -/
def binary (cmp : Value V L → Value V L → M Bool) (n : Nat) (ev : Evaluator V L M) (m : Machine)
    (env : Env) (op : BinaryOp) (l r : Expr V L) : M (Value V L) := do
  match op with
  | .and => logical n ev m env op false l r
  | .or => logical n ev m env op true l r
  | .assign => assign n ev m env l r
  | .eq =>
    let v ← ev m env l
    let w ← ev m env r
    return .bool (← cmp v w)
  | .ne =>
    let v ← ev m env l
    let w ← ev m env r
    return .bool (!(← cmp v w))
  | op =>
    let v ← ev m env l
    let w ← ev m env r
    arithmetic n op v w

/-! ## Application -/

/-- A pair of two expressions. Under the eager policy the second one has to be a list. -/
def cons (n : Nat) (ev : Evaluator V L M) (m : Machine) (env : Env) (h t : Expr V L) :
    M (Value V L) := do
  let head ← defer ev m env m.config.cons h
  let tail ← defer ev m env m.config.cons t
  match m.config.cons, tail with
  | .value, .ready v =>
    if v.isList then EvalOps.newPair head tail
    else throw (.notAList Prim.cons.name (← shown n v))
  | _, _ => EvalOps.newPair head tail

def select (n : Nat) (p : Prim) (part : Nat → Nat → M (Value V L)) (v : Value V L) :
    M (Value V L) := do
  match v with
  | .pair h t => part h t
  | .null => throw (.typeMismatch p.name "the empty list ()")
  | v => throw (.notAList p.name (← shown n v))

def primitive (n : Nat) (ev : Evaluator V L M) (p : Prim) (v : Value V L) :
    M (Value V L) := do
  match p with
  | .isNumber => return .bool (match v with | .int _ => true | _ => false)
  | .isFunction => return .bool v.isFunction
  | .isList => return .bool v.isList
  | .isNull => return .bool (match v with | .null => true | _ => false)
  | .isCons => return .bool (match v with | .pair _ _ => true | _ => false)
  | .isRef => return .bool (match v with | .ref _ => true | _ => false)
  | .arity =>
    match v with
    | .closure _ c => return .int c.arity
    | .prim q => return .int q.parameters
    | v => mismatch n p.name v
  | .first => select n p (fun h _ => forceHead ev h) v
  | .rest => select n p (fun _ t => forceTail n ev t) v
  | .cons => mismatch n p.name v

def applyPrim (n : Nat) (ev : Evaluator V L M) (m : Machine) (env : Env) (p : Prim)
    (args : List (Expr V L)) : M (Value V L) := do
  match p, args with
  | .cons, [h, t] => cons n ev m env h t
  | .cons, args => throw (.arityMismatch Prim.cons.name Prim.cons.parameters args.length)
  | p, [e] => primitive n ev p (← ev m env e)
  | p, args => throw (.arityMismatch p.name p.parameters args.length)

/-- Call a closure that was found by evaluating `f`, given what to do with its body. The arguments
are bound before that. -/
def applyClosureBy [Variable V] (call : Env → Expr V L → M (Value V L)) (ev : Evaluator V L M)
    (m : Machine) (env : Env) (f : Expr V L) (c : Closure V L) (args : List (Expr V L)) :
    M (Value V L) := do
  if args.length ≠ c.arity then throw (.arityMismatch f.text c.arity args.length)
  else
    let frame ← EvalOps.newFrame (c.params.map Ident.name)
    bindEach ev m env frame args
    call (frame :: c.env) c.body

/-- Call a closure. Its body is evaluated one level deeper. -/
abbrev applyClosure [Variable V] (ev : Evaluator V L M) (m : Machine) (env : Env) (f : Expr V L)
    (c : Closure V L) (args : List (Expr V L)) : M (Value V L) :=
  applyClosureBy (fun env body => nested m (ev m env body)) ev m env f c args

/-! ## Expressions -/

/-- Evaluate expressions in order; the result is that of the last one. -/
def sequence (ev : Evaluator V L M) (m : Machine) (env : Env) :
    Value V L → List (Expr V L) → M (Value V L)
  | v, [] => return v
  | _, e :: es => do sequence ev m env (← ev m env e) es

/-- Evaluate an expression, given how to evaluate the ones it leads to, how to compare two values
and what to do with the body of a closure that is called. -/
def stepBy [Variable V] (cmp : Value V L → Value V L → M Bool)
    (call : Env → Expr V L → M (Value V L)) (n : Nat) (ev : Evaluator V L M) :
    Evaluator V L M := fun m env e => do
  match e with
  | .int _ k => return .int k
  | .bool _ b => return .bool b
  | .null _ => return .null
  | .prim _ p => return .prim p
  | .var _ x =>
    match Variable.lookup env x with
    | some b => force ev b.name b.slot
    | none => throw (.unboundVariable (Variable.text x))
  | .unary _ op e => unary n op (← ev m env e)
  | .binary _ op l r => binary cmp n ev m env op l r
  | .app _ f args =>
    match ← ev m env f with
    | .closure _ c => applyClosureBy call ev m env f c args
    | .prim p => applyPrim n ev m env p args
    | v => throw (.notAFunction (← shown n v))
  | .map _ params layout body => modifyGet (fun s => s.newClosure ⟨params, layout, body, env⟩)
  | .cond _ t a b =>
    match ← ev m env t with
    | .bool true => ev m env a
    | .bool false => ev m env b
    | v => mismatch n "if" v
  | .letIn _ kind defs _ body =>
    let frame ← EvalOps.newFrame (Expr.defNames defs)
    let inner := frame :: env
    let scope := match kind with
      | .plain => env
      | .recursive => inner
    bindEach ev m scope frame (Expr.defValues defs)
    ev m inner body
  | .block _ es => sequence ev m env .unit es

/-- Evaluate an expression, given how to evaluate the ones it leads to. -/
abbrev step [Variable V] (n : Nat) (ev : Evaluator V L M) : Evaluator V L M := fun m =>
  stepBy (equals ev n) (fun env body => nested m (ev m env body)) n ev m

end Eval

namespace Machine

variable {V L : Type} [Variable V] {M : Type → Type} [Monad M] [EvalOps V L M]
  [MonadState (Store V L) M] [MonadExcept EvalError M]

/-- Evaluate an expression in an environment. The number bounds the recursion. -/
@[specialize] def eval : Nat → Machine → Env → Expr V L → M (Value V L)
  | 0, _, _, _ => EvalOps.exhausted
  | n + 1, m, env, e => Eval.step n (eval n) m env e

end Machine

namespace Value

variable {V L : Type} {M : Type → Type} [Monad M] [EvalOps V L M]
  [MonadState (Store V L) M] [MonadExcept EvalError M]

mutual

/-- The text of a value after evaluating all parts of pairs that are still put off, given how to
evaluate an expression. -/
@[specialize] def renderBy (ev : Nat → Evaluator V L M) : Nat → Value V L → M String
  | 0, _ => EvalOps.exhausted
  | n + 1, .ref i => do return "(ref " ++ (← renderBy ev n ((← get).cell i)) ++ ")"
  | n + 1, .pair h t => do return "(" ++ (← renderItemsBy ev n h t) ++ ")"
  | _ + 1, v => return v.plainText

@[specialize] def renderItemsBy (ev : Nat → Evaluator V L M) : Nat → Nat → Nat → M String
  | 0, _, _ => EvalOps.exhausted
  | n + 1, h, t => do
    let head ← renderBy ev n (← Eval.forceHead (ev n) h)
    match ← Eval.forceTail n (ev n) t with
    | .pair h t => return head ++ " " ++ (← renderItemsBy ev n h t)
    | _ => return head

end

/-- The text of a value after evaluating all parts of pairs that are still put off. -/
abbrev render [Variable V] : Nat → Value V L → M String := renderBy Machine.eval

/-- The items of a list, given by the slots of its first pair, with blanks between them. -/
abbrev renderItems [Variable V] : Nat → Nat → Nat → M String := renderItemsBy Machine.eval

end Value

/-- Evaluate a closed program with a machine of its own. -/
def evaluate {V L : Type} [Variable V] (n : Nat) (config : Config) (e : Expr V L) :
    Option (Except EvalError (Value V L) × Store V L) :=
  let (m, s) := Store.empty.newMachine config
  (m.eval n [] e : Eval V L (Value V L)).run.run s

end Mapling
