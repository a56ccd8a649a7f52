import Mapling.Arena.Config
import Mapling.Arena.Decode
import Mapling.Arithmetic
import Mapling.Expr.Text
import Mapling.Value.Text

/-! # Running programs in an arena

A program is evaluated eagerly, and every value it makes is a cell. Calls and definitions make
activations, whose links lead to the activation around them, so an environment is the address of
an activation or nothing.

As for the evaluator, a number bounds the recursion; when it is used up there is no outcome. -/

namespace Mapling

/-- The state of running programs, one after another. -/
structure Run where
  arena : Arena
  /-- How deep calls are nested. -/
  depth : Nat
  /-- The code index of each `map` evaluated so far, by its number. -/
  functions : Std.HashMap Nat Nat
  /-- The index of the names of each definition form that the program evaluated so far, by its
  number. All forms without definitions share one index. -/
  letNames : Std.HashMap (Option Nat) Nat

namespace Run

def start (a : Arena) : Run := ⟨a, 0, ∅, ∅⟩

/-- Get ready for a program: the result is the program with its binding forms numbered. -/
def prepare (r : Run) (e : AddressedExpr) : SitedExpr × Run :=
  match r with
  | ⟨⟨words, capacity, code⟩, _, functions, _⟩ =>
    match code.number e with
    | (e, code) => (e, ⟨⟨words, capacity, code⟩, 0, functions, ∅⟩)

def onArena {α : Type} (r : Run) (f : Arena → α × Arena) : α × Run :=
  match r with
  | ⟨arena, depth, functions, letNames⟩ =>
    match f arena with
    | (x, arena) => (x, ⟨arena, depth, functions, letNames⟩)

/-- The index of the names of a definition form. They are recorded the first time. -/
def namesOf (r : Run) (site : Site) (names : List Ident) : Nat × Run :=
  let key := if names.isEmpty then none else some site.number
  match r.letNames[key]? with
  | some i => (i, r)
  | none =>
    match r with
    | ⟨⟨words, capacity, code⟩, depth, functions, letNames⟩ =>
      match code.addNames names with
      | (i, code) => (i, ⟨⟨words, capacity, code⟩, depth, functions, letNames.insert key i⟩)

/-- The code index of a `map`. The function is recorded the first time. -/
def codeOf (r : Run) (params : List Ident) (site : Site) (body : SitedExpr) : Nat × Run :=
  match r.functions[site.number]? with
  | some i => (i, r)
  | none =>
    match r with
    | ⟨⟨words, capacity, code⟩, depth, functions, letNames⟩ =>
      match code.addFunction params site body with
      | (i, code) =>
        (i, ⟨⟨words, capacity, code⟩, depth, functions.insert site.number i, letNames⟩)

def recordFrame (r : Run) (frame names : Nat) : Run :=
  match r with
  | ⟨⟨words, capacity, code⟩, depth, functions, letNames⟩ =>
    ⟨⟨words, capacity, code.recordFrame frame names⟩, depth, functions, letNames⟩

end Run

/-- A computation in an arena: a result or an error and the state afterwards, or no outcome. -/
abbrev ArenaEval := ExceptT ArenaError (StateT Run Option)

/-- How to evaluate an expression to a cell, given the innermost activation. -/
abbrev ArenaEvaluator := Option Nat → SitedExpr → ArenaEval Nat

namespace ArenaEval

def exhausted {α : Type} : ArenaEval α := ExceptT.mk (fun _ => none)

def ofExcept {α : Type} : Except ArenaError α → ArenaEval α
  | .ok x => pure x
  | .error e => throw e

def read {α : Type} (f : Arena → Except ArenaError α) : ArenaEval α := do
  ofExcept (f (← get).arena)

def write {α : Type} (f : Arena → Except ArenaError α × Arena) : ArenaEval α :=
  ExceptT.mk (fun r => some (r.onArena f))

/-- Fail because of the program itself. -/
def fault {α : Type} (e : EvalError) : ArenaEval α := throw (.eval e)

/-- The tag of a cell, if its first word is one. -/
def tag (addr : Nat) : ArenaEval (Option Tag) := do
  return Tag.ofWord? (← read (fun a => a.tagWord addr))

def alloc (cell : List Int) : ArenaEval Nat := write (fun a => a.alloc cell)

def allocInt (n : Int) : ArenaEval Nat := alloc [Tag.int.word, n]

/-- How a message shows a cell: as the value it holds, or by its address if it holds none. -/
def shown (n addr : Nat) : ArenaEval String := do
  match (← get).arena.decode n addr with
  | none => exhausted
  | some (.error _, _) => return "@" ++ toString addr
  | some (.ok v, d) =>
    match v.text d.store n with
    | some t => return t
    | none => exhausted

def mismatch {α : Type} (n : Nat) (op : String) (addr : Nat) : ArenaEval α := do
  fault (.typeMismatch op (← shown n addr))

/-! ## Variables and activations -/

def outward (a : Arena) : Nat → Nat → Except ArenaError (Option Nat)
  | 0, frame => return some frame
  | d + 1, frame => do
    match ← a.fieldLink frame Cell.activationLink with
    | some outer => outward a d outer
    | none => return none

/-- What an address stands for: the activation and the word in its slot. -/
def slotAt (a : Arena) (env : Option Nat) (x : Address) :
    Except ArenaError (Option (Nat × Int)) := do
  match env with
  | none => return none
  | some frame =>
    match ← outward a x.depth frame with
    | none => return none
    | some frame =>
      match ← a.slot? frame x.offset with
      | none => return none
      | some w => return some (frame, w)

/-- The name of a variable in an activation, or its address if the activation has no names. -/
def nameIn (code : CodeTable) (frame : Nat) (x : Address) : String :=
  match ((code.frameNames? frame).getD [])[x.offset]? with
  | some id => id.name
  | none => x.text

def lookup (env : Option Nat) (x : Address) : ArenaEval Nat := do
  match ← read (fun a => slotAt a env x) with
  | none => fault (.unboundVariable x.text)
  | some (frame, w) =>
    if w = Cell.uninit then fault (.forwardReference (nameIn (← get).arena.code frame x))
    else ofExcept (addressOf w)

def allocFrame (outer : Option Nat) (slots : List Int) (names : Nat) : ArenaEval Nat := do
  let frame ← alloc (Tag.activation.word :: Cell.linkWord outer :: slots.length :: slots)
  modify (fun r => r.recordFrame frame names)
  return frame

def allocClosure (env : Option Nat) (params : List Ident) (site : Site) (body : SitedExpr) :
    ArenaEval Nat := do
  let code : Nat ← modifyGet (fun r => r.codeOf params site body)
  alloc [Tag.closure.word, params.length, code, Cell.linkWord env]

/-- Evaluate expressions in order; the result lists their cells. -/
def evalEach (ev : ArenaEvaluator) (env : Option Nat) : List SitedExpr → ArenaEval (List Int)
  | [] => return []
  | e :: es => do
    let addr ← ev env e
    return (addr : Int) :: (← evalEach ev env es)

/-- Evaluate definitions in order, each into the next slot of an activation. -/
def evalInto (ev : ArenaEvaluator) (frame : Nat) : Nat → List SitedExpr → ArenaEval Unit
  | _, [] => return ()
  | i, e :: es => do
    let addr ← ev (some frame) e
    write (fun a => a.setField frame (Cell.activationSlots + i) addr)
    evalInto ev frame (i + 1) es

/-! ## Operators -/

def unary (n : Nat) (op : UnaryOp) (addr : Nat) : ArenaEval Nat := do
  match op, ← tag addr with
  | .neg, some .int =>
    match negate (← read (fun a => a.field addr Cell.intValue)) with
    | .ok k => allocInt k
    | .error e => fault e
  | .not, some (.bool b) => return Cell.boolAddr (!b)
  | .deref, some .ref => read (fun a => a.fieldAddr addr Cell.refReferent)
  | .ref, _ => alloc [Tag.ref.word, addr]
  | op, _ => mismatch n op.symbol addr

def truth? (addr : Nat) : Option Bool :=
  if addr = Cell.boolAddr true then some true
  else if addr = Cell.boolAddr false then some false
  else none

def logical (n : Nat) (ev : ArenaEvaluator) (env : Option Nat) (op : BinaryOp) (decisive : Bool)
    (l r : SitedExpr) : ArenaEval Nat := do
  let left ← ev env l
  match truth? left with
  | none => mismatch n op.symbol left
  | some b =>
    if b = decisive then return left
    else
      let right ← ev env r
      match truth? right with
      | some _ => return right
      | none => mismatch n op.symbol right

def assign (n : Nat) (ev : ArenaEvaluator) (env : Option Nat) (l r : SitedExpr) :
    ArenaEval Nat := do
  let target ← ev env l
  match ← tag target with
  | some .ref =>
    let addr ← ev env r
    write (fun a => a.setField target Cell.refReferent addr)
    return Cell.unitAddr
  | _ => mismatch n BinaryOp.assign.symbol target

def operand (n : Nat) (op : BinaryOp) (addr : Nat) : ArenaEval Int := do
  match ← tag addr with
  | some .int => read (fun a => a.field addr Cell.intValue)
  | _ => mismatch n op.symbol addr

def arithmetic (n : Nat) (op : BinaryOp) (left right : Nat) : ArenaEval Nat := do
  let x ← operand n op left
  let y ← operand n op right
  match op.onInts x y with
  | .ok (.int k) => allocInt k
  | .ok (.bool b) => return Cell.boolAddr b
  | .error e => fault e

/-- Equality. A cell equals itself; integers and pairs are compared by content. -/
def equals : Nat → Nat → Nat → ArenaEval Bool
  | 0, _, _ => exhausted
  | n + 1, l, r => do
    if l = r then return true
    else match ← tag l, ← tag r with
      | some .int, some .int =>
        let x ← read (fun a => a.field l Cell.intValue)
        let y ← read (fun a => a.field r Cell.intValue)
        return x == y
      | some .pair, some .pair =>
        let x ← read (fun a => a.fieldAddr l Cell.pairHead)
        let y ← read (fun a => a.fieldAddr r Cell.pairHead)
        if ← equals n x y then
          let x ← read (fun a => a.fieldAddr l Cell.pairTail)
          let y ← read (fun a => a.fieldAddr r Cell.pairTail)
          equals n x y
        else return false
      | _, _ => return false

def binary (n : Nat) (ev : ArenaEvaluator) (env : Option Nat) (op : BinaryOp)
    (l r : SitedExpr) : ArenaEval Nat := do
  match op with
  | .and => logical n ev env op false l r
  | .or => logical n ev env op true l r
  | .assign => assign n ev env l r
  | .eq =>
    let x ← ev env l
    let y ← ev env r
    return Cell.boolAddr (← equals n x y)
  | .ne =>
    let x ← ev env l
    let y ← ev env r
    return Cell.boolAddr (!(← equals n x y))
  | op =>
    let x ← ev env l
    let y ← ev env r
    arithmetic n op x y

/-! ## Application -/

def enter (limit : Nat) : ArenaEval Unit := do
  if (← get).depth < limit then modify (fun r => { r with depth := r.depth + 1 })
  else fault (.depthExceeded limit)

def nested {α : Type} (limit : Nat) (act : ArenaEval α) : ArenaEval α := do
  enter limit
  ExceptT.mk do
    let x ← act.run
    modify (fun r => { r with depth := r.depth - 1 })
    return x

/-- Call the closure at `addr`, which was found by evaluating `f`. The activation is made before
the call counts as a level of depth. -/
def applyClosure (limit : Nat) (ev : ArenaEvaluator) (env : Option Nat) (f : SitedExpr)
    (addr : Nat) (args : List SitedExpr) : ArenaEval Nat := do
  let arity ← read (fun a => a.arityOf addr)
  if args.length ≠ arity then fault (.arityMismatch f.text arity args.length)
  else
    let function ← read (fun a => a.functionOf addr)
    let outer ← read (fun a => a.fieldLink addr Cell.closureLink)
    let slots ← evalEach ev env args
    let frame ← allocFrame outer slots function.names
    nested limit (ev (some frame) function.body)

def cons (n : Nat) (ev : ArenaEvaluator) (env : Option Nat) (h t : SitedExpr) :
    ArenaEval Nat := do
  let head ← ev env h
  let tail ← ev env t
  if (← tag tail).any Tag.isList then alloc [Tag.pair.word, head, tail]
  else fault (.notAList Prim.cons.name (← shown n tail))

def select (n : Nat) (p : Prim) (part addr : Nat) : ArenaEval Nat := do
  match ← tag addr with
  | some .pair => read (fun a => a.fieldAddr addr part)
  | some .null => fault (.typeMismatch p.name "the empty list ()")
  | _ => fault (.notAList p.name (← shown n addr))

def primitive (n : Nat) (p : Prim) (addr : Nat) : ArenaEval Nat := do
  let t ← tag addr
  match p with
  | .isNumber => return Cell.boolAddr (t == some .int)
  | .isFunction => return Cell.boolAddr (t.any Tag.isFunction)
  | .isList => return Cell.boolAddr (t.any Tag.isList)
  | .isNull => return Cell.boolAddr (t == some .null)
  | .isCons => return Cell.boolAddr (t == some .pair)
  | .isRef => return Cell.boolAddr (t == some .ref)
  | .arity =>
    match t with
    | some (.prim q) => allocInt q.parameters
    | some .closure => allocInt (← read (fun a => a.field addr Cell.closureArity))
    | _ => mismatch n p.name addr
  | .first => select n p Cell.pairHead addr
  | .rest => select n p Cell.pairTail addr
  | .cons => mismatch n p.name addr

def applyPrim (n : Nat) (ev : ArenaEvaluator) (env : Option Nat) (p : Prim)
    (args : List SitedExpr) : ArenaEval Nat := do
  match p, args with
  | .cons, [h, t] => cons n ev env h t
  | .cons, args => fault (.arityMismatch Prim.cons.name Prim.cons.parameters args.length)
  | p, [e] => primitive n p (← ev env e)
  | p, args => fault (.arityMismatch p.name p.parameters args.length)

/-! ## Expressions -/

/-- Evaluate expressions in order; the result is the cell of the last one. -/
def sequence (ev : ArenaEvaluator) (env : Option Nat) : Nat → List SitedExpr → ArenaEval Nat
  | addr, [] => return addr
  | _, e :: es => do sequence ev env (← ev env e) es

def step (limit n : Nat) (ev : ArenaEvaluator) : ArenaEvaluator := fun env e => do
  match e with
  | .int _ k => allocInt k
  | .bool _ b => return Cell.boolAddr b
  | .null _ => return Cell.nullAddr
  | .prim _ p => return Cell.primAddr p
  | .var _ x => lookup env x
  | .unary _ op e => unary n op (← ev env e)
  | .binary _ op l r => binary n ev env op l r
  | .app _ f args =>
    let addr ← ev env f
    match ← tag addr with
    | some .closure => applyClosure limit ev env f addr args
    | some (.prim p) => applyPrim n ev env p args
    | _ => fault (.notAFunction (← shown n addr))
  | .map _ params site body => allocClosure env params site body
  | .cond _ t a b =>
    let test ← ev env t
    match truth? test with
    | some true => ev env a
    | some false => ev env b
    | none => mismatch n "if" test
  | .letIn _ .plain defs site body =>
    let slots ← evalEach ev env (Expr.defValues defs)
    let names ← modifyGet (fun r => r.namesOf site (defs.map Prod.fst))
    let frame ← allocFrame env slots names
    ev (some frame) body
  | .letIn _ .recursive defs site body =>
    let names ← modifyGet (fun r => r.namesOf site (defs.map Prod.fst))
    let frame ← allocFrame env (List.replicate defs.length Cell.uninit) names
    evalInto ev frame 0 (Expr.defValues defs)
    ev (some frame) body
  | .block _ es => sequence ev env Cell.unitAddr es

/-- Evaluate an expression to a cell. The number bounds the recursion. -/
def eval (limit : Nat) : Nat → ArenaEvaluator
  | 0, _, _ => exhausted
  | n + 1, env, e => step limit n (eval limit n) env e

end ArenaEval

/-- Run a closed program: the address of its result, and the state afterwards. -/
def Run.program (r : Run) (limit n : Nat) (e : AddressedExpr) :
    Option (Except ArenaError Nat × Run) :=
  match r.prepare e with
  | (e, r) => (ArenaEval.eval limit n none e).run.run r

/-- Run a closed program, which may have shared parts, in an arena of its own and decode the
result. -/
def runSitedInArena (config : ArenaConfig) (n : Nat) (e : SitedExpr) :
    Option (Except ArenaError (CellValue × Store Address Site)) := do
  let start := Run.start (.withCapacity config.capacity)
  let (r, run) ← (ArenaEval.eval config.maxDepth n none e).run.run start
  match r with
  | .error e => return .error e
  | .ok addr =>
    let (v, d) ← run.arena.decode n addr
    return v.map (fun v => (v, d.store))

/-- The same for a program in which nothing is shared. -/
def runInArena (config : ArenaConfig) (n : Nat) (e : AddressedExpr) :
    Option (Except ArenaError (CellValue × Store Address Site)) :=
  runSitedInArena config n (e.sited 0).1

end Mapling
