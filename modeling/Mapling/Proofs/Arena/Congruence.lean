import Mapling.Arena.Run
import Mapling.Proofs.Outcome

/-! # Relations that running in an arena respects

As for the evaluator, a statement about two runs, or about one, is a relation between computations
(`ArenaCongruence`), and most operations respect it because they only run others one after the
other. What is asked of the relation itself is how it deals with what touches the state: making and
writing cells, recording code and names, and showing cells in messages. -/

namespace Mapling

/-- What is read from an arena without asking for how many words there is room. -/
def Arena.Overlooks {α : Type} (f : Arena → Except ArenaError α) : Prop :=
  ∀ (words : Array Int) (c c' : Nat) (code : CodeTable), f ⟨words, c, code⟩ = f ⟨words, c', code⟩

/-- A relation between computations in an arena that keeps up with doing one thing after the other.
The calls of the two computations may have different limits. -/
structure ArenaCongruence (limit limit' : Nat) where
  Rel : ∀ {α : Type}, ArenaEval α → ArenaEval α → Prop
  pure : ∀ {α : Type} (a : α), Rel (pure a) (pure a)
  throw : ∀ {α : Type} (e : ArenaError), Rel (throw e : ArenaEval α) (throw e)
  exhausted : ∀ {α : Type}, Rel (ArenaEval.exhausted : ArenaEval α) ArenaEval.exhausted
  bind : ∀ {α β : Type} {x y : ArenaEval α} {f g : α → ArenaEval β}, Rel x y →
    (∀ a, Rel (f a) (g a)) → Rel (x >>= f) (y >>= g)
  read : ∀ {α : Type} {f : Arena → Except ArenaError α}, Arena.Overlooks f →
    Rel (ArenaEval.read f) (ArenaEval.read f)
  shown : ∀ n addr, Rel (ArenaEval.shown n addr) (ArenaEval.shown n addr)
  name : ∀ (frame : Nat) (x : Address),
    Rel (do return ArenaEval.nameIn (← get).arena.code frame x)
      (do return ArenaEval.nameIn (← get).arena.code frame x)
  alloc : ∀ cell, Rel (ArenaEval.alloc cell) (ArenaEval.alloc cell)
  setField : ∀ addr i w, Rel (ArenaEval.write (fun a => a.setField addr i w))
    (ArenaEval.write (fun a => a.setField addr i w))
  codeOf : ∀ params site body, Rel (modifyGet (fun r => r.codeOf params site body))
    (modifyGet (fun r => r.codeOf params site body))
  frame : ∀ (site : Site) (names : List Ident) (outer : Option Nat) (slots : List Int)
    {f g : Nat → ArenaEval Nat}, (∀ frame, Rel (f frame) (g frame)) →
    Rel
      (do
        let names ← modifyGet (fun r => r.namesOf site names)
        let frame ← ArenaEval.allocFrame outer slots names
        f frame)
      (do
        let names ← modifyGet (fun r => r.namesOf site names)
        let frame ← ArenaEval.allocFrame outer slots names
        g frame)
  call : ∀ (addr : Nat) {x y : ArenaEval (List Int)} {f g : ArenaEvaluator}, Rel x y →
    (∀ env e, Rel (f env e) (g env e)) →
    Rel
      (do
        let function ← ArenaEval.read (fun a => a.functionOf addr)
        let outer ← ArenaEval.read (fun a => a.fieldLink addr Cell.closureLink)
        let slots ← x
        let frame ← ArenaEval.allocFrame outer slots function.names
        ArenaEval.nested limit (f (some frame) function.body))
      (do
        let function ← ArenaEval.read (fun a => a.functionOf addr)
        let outer ← ArenaEval.read (fun a => a.fieldLink addr Cell.closureLink)
        let slots ← y
        let frame ← ArenaEval.allocFrame outer slots function.names
        ArenaEval.nested limit' (g (some frame) function.body))

namespace ArenaCongruence

variable {limit limit' : Nat} {c : ArenaCongruence limit limit'} {α : Type} {n : Nat}

theorem fault (e : EvalError) : c.Rel (ArenaEval.fault e : ArenaEval α) (ArenaEval.fault e) :=
  c.throw _

theorem ofExcept (o : Except ArenaError α) :
    c.Rel (ArenaEval.ofExcept o) (ArenaEval.ofExcept o) := by
  cases o with
  | ok a => exact c.pure a
  | error e => exact c.throw e

theorem tag (addr : Nat) : c.Rel (ArenaEval.tag addr) (ArenaEval.tag addr) :=
  c.bind (c.read (fun _ _ _ _ => rfl)) (fun _ => c.pure _)

theorem field (addr i : Nat) : c.Rel (ArenaEval.read (fun a => a.field addr i))
    (ArenaEval.read (fun a => a.field addr i)) :=
  c.read (fun _ _ _ _ => rfl)

theorem fieldAddr (addr i : Nat) : c.Rel (ArenaEval.read (fun a => a.fieldAddr addr i))
    (ArenaEval.read (fun a => a.fieldAddr addr i)) :=
  c.read (fun _ _ _ _ => rfl)

theorem mismatch (op : String) (addr : Nat) :
    c.Rel (ArenaEval.mismatch n op addr : ArenaEval α) (ArenaEval.mismatch n op addr) :=
  c.bind (c.shown n addr) (fun _ => fault _)

theorem overlooks_outward (words : Array Int) (room room' : Nat) (code : CodeTable)
    (k frame : Nat) : ArenaEval.outward ⟨words, room, code⟩ k frame =
      ArenaEval.outward ⟨words, room', code⟩ k frame := by
  induction k generalizing frame with
  | zero => rfl
  | succ k ih =>
    simp only [ArenaEval.outward, ih]
    rfl

theorem lookup (env : Option Nat) (x : Address) :
    c.Rel (ArenaEval.lookup env x) (ArenaEval.lookup env x) := by
  refine c.bind (c.read (fun words room room' code => ?_)) (fun o => ?_)
  · simp only [ArenaEval.slotAt, overlooks_outward words room room' code]
    rfl
  · split
    · exact fault _
    · rename_i frame w
      split
      · have h := c.bind (c.name frame x) (fun name => fault (α := Nat) (.forwardReference name))
        simp only [bind_assoc, pure_bind] at h
        exact h
      · exact ofExcept _

/-! ## Operators -/

theorem unary (op : UnaryOp) (addr : Nat) :
    c.Rel (ArenaEval.unary n op addr) (ArenaEval.unary n op addr) := by
  refine c.bind (tag addr) (fun t => ?_)
  split
  · refine c.bind (field _ _) (fun k => ?_)
    split
    · exact c.alloc _
    · exact fault _
  · exact c.pure _
  · exact fieldAddr _ _
  · exact c.alloc _
  · exact mismatch _ addr

theorem operand (op : BinaryOp) (addr : Nat) :
    c.Rel (ArenaEval.operand n op addr) (ArenaEval.operand n op addr) := by
  refine c.bind (tag addr) (fun t => ?_)
  split
  · exact field _ _
  · exact mismatch _ addr

theorem arithmetic (op : BinaryOp) (x y : Nat) :
    c.Rel (ArenaEval.arithmetic n op x y) (ArenaEval.arithmetic n op x y) := by
  refine c.bind (operand op x) (fun i => c.bind (operand op y) (fun j => ?_))
  split
  · exact c.alloc _
  · exact c.pure _
  · exact fault _

theorem equals (n x y : Nat) : c.Rel (ArenaEval.equals n x y) (ArenaEval.equals n x y) := by
  induction n generalizing x y with
  | zero => exact c.exhausted
  | succ n ih =>
    rw [ArenaEval.equals]
    split
    · exact c.pure true
    · refine c.bind (tag x) (fun t => c.bind (tag y) (fun u => ?_))
      split
      · exact c.bind (field _ _) (fun _ => c.bind (field _ _) (fun _ => c.pure _))
      · refine c.bind (fieldAddr _ _) (fun _ => c.bind (fieldAddr _ _) (fun _ =>
          c.bind (ih _ _) (fun b => ?_)))
        split
        · exact c.bind (fieldAddr _ _) (fun _ => c.bind (fieldAddr _ _) (fun _ => ih _ _))
        · exact c.pure _
      · exact c.pure _

theorem select (p : Prim) (part addr : Nat) :
    c.Rel (ArenaEval.select n p part addr) (ArenaEval.select n p part addr) := by
  refine c.bind (tag addr) (fun t => ?_)
  split
  · exact fieldAddr _ _
  · exact fault _
  · exact c.bind (c.shown n addr) (fun _ => fault _)

theorem primitive (p : Prim) (addr : Nat) :
    c.Rel (ArenaEval.primitive n p addr) (ArenaEval.primitive n p addr) := by
  refine c.bind (tag addr) (fun t => ?_)
  cases p with
  | arity =>
    dsimp only
    split
    · exact c.alloc _
    · exact c.bind (field _ _) (fun _ => c.alloc _)
    · exact mismatch _ addr
  | first => exact select .first _ addr
  | rest => exact select .rest _ addr
  | cons => exact mismatch _ addr
  | _ => exact c.pure _

/-! ## Expressions -/

section

variable {ev ev' : ArenaEvaluator} (hev : ∀ env e, c.Rel (ev env e) (ev' env e)) (env : Option Nat)

include hev

theorem logical (op : BinaryOp) (decisive : Bool) (l r : SitedExpr) :
    c.Rel (ArenaEval.logical n ev env op decisive l r)
      (ArenaEval.logical n ev' env op decisive l r) := by
  refine c.bind (hev env l) (fun x => ?_)
  split
  · exact mismatch _ x
  · split
    · exact c.pure x
    · refine c.bind (hev env r) (fun y => ?_)
      split
      · exact c.pure y
      · exact mismatch _ y

theorem assign (l r : SitedExpr) :
    c.Rel (ArenaEval.assign n ev env l r) (ArenaEval.assign n ev' env l r) := by
  refine c.bind (hev env l) (fun x => c.bind (tag x) (fun t => ?_))
  split
  · exact c.bind (hev env r) (fun y => c.bind (c.setField _ _ _) (fun _ => c.pure _))
  · exact mismatch _ x

theorem binary (op : BinaryOp) (l r : SitedExpr) :
    c.Rel (ArenaEval.binary n ev env op l r) (ArenaEval.binary n ev' env op l r) := by
  -- all operators but three evaluate both operands before they do anything else
  have hboth : ∀ {f : Nat → Nat → ArenaEval Nat}, (∀ x y, c.Rel (f x y) (f x y)) →
      c.Rel (do f (← ev env l) (← ev env r)) (do f (← ev' env l) (← ev' env r)) :=
    fun hf => c.bind (hev env l) (fun x => c.bind (hev env r) (fun y => hf x y))
  cases op with
  | and => exact logical hev env .and false l r
  | or => exact logical hev env .or true l r
  | assign => exact assign hev env l r
  | eq | ne => exact hboth (fun x y => c.bind (equals n x y) (fun _ => c.pure _))
  | _ => exact hboth (fun x y => arithmetic _ x y)

theorem evalEach (es : List SitedExpr) :
    c.Rel (ArenaEval.evalEach ev env es) (ArenaEval.evalEach ev' env es) := by
  induction es with
  | nil => exact c.pure _
  | cons e es ih => exact c.bind (hev env e) (fun x => c.bind ih (fun _ => c.pure _))

omit env in
theorem evalInto (frame i : Nat) (es : List SitedExpr) :
    c.Rel (ArenaEval.evalInto ev frame i es) (ArenaEval.evalInto ev' frame i es) := by
  induction es generalizing i with
  | nil => exact c.pure _
  | cons e es ih =>
    exact c.bind (hev (some frame) e) (fun x => c.bind (c.setField _ _ _) (fun _ => ih (i + 1)))

theorem applyClosure (f : SitedExpr) (addr : Nat) (args : List SitedExpr) :
    c.Rel (ArenaEval.applyClosure limit ev env f addr args)
      (ArenaEval.applyClosure limit' ev' env f addr args) := by
  refine c.bind (c.read (fun _ _ _ _ => rfl)) (fun arity => ?_)
  split
  · exact fault _
  · exact c.call addr (evalEach hev env args) hev

theorem cons (h t : SitedExpr) :
    c.Rel (ArenaEval.cons n ev env h t) (ArenaEval.cons n ev' env h t) := by
  refine c.bind (hev env h) (fun x => c.bind (hev env t) (fun y => c.bind (tag y) (fun u => ?_)))
  split
  · exact c.alloc _
  · exact c.bind (c.shown n y) (fun _ => fault _)

theorem applyPrim (p : Prim) (args : List SitedExpr) :
    c.Rel (ArenaEval.applyPrim n ev env p args) (ArenaEval.applyPrim n ev' env p args) := by
  unfold ArenaEval.applyPrim
  split
  · exact cons hev env _ _
  · exact fault _
  · exact c.bind (hev env _) (fun x => primitive _ x)
  · exact fault _

theorem sequence (addr : Nat) (es : List SitedExpr) :
    c.Rel (ArenaEval.sequence ev env addr es) (ArenaEval.sequence ev' env addr es) := by
  induction es generalizing addr with
  | nil => exact c.pure addr
  | cons e es ih => exact c.bind (hev env e) (fun x => ih x)

/-- One level of the recursion in the arena respects the relation. -/
theorem step (e : SitedExpr) :
    c.Rel (ArenaEval.step limit n ev env e) (ArenaEval.step limit' n ev' env e) := by
  cases e with
  | int sp k => exact c.alloc _
  | var sp x => exact lookup env x
  | unary sp op e => exact c.bind (hev env e) (fun x => unary op x)
  | binary sp op l r => exact binary hev env op l r
  | app sp f args =>
    refine c.bind (hev env f) (fun x => c.bind (tag x) (fun t => ?_))
    split
    · exact applyClosure hev env f x args
    · exact applyPrim hev env _ args
    · exact c.bind (c.shown n x) (fun _ => fault _)
  | map sp params site body => exact c.bind (c.codeOf params site body) (fun _ => c.alloc _)
  | cond sp t a b =>
    refine c.bind (hev env t) (fun x => ?_)
    split
    · exact hev env a
    · exact hev env b
    · exact mismatch _ x
  | letIn sp kind defs site body =>
    have hbody := fun frame => hev (some frame) body
    cases kind with
    | plain =>
      exact c.bind (evalEach hev env _) (fun slots => c.frame site _ env slots hbody)
    | recursive =>
      exact c.frame site _ env _ (fun frame =>
        c.bind (evalInto hev frame 0 _) (fun _ => hbody frame))
  | block sp es => exact sequence hev env _ es
  | _ => exact c.pure _

end

theorem eval (c : ArenaCongruence limit limit') (n : Nat) (env : Option Nat) (e : SitedExpr) :
    c.Rel (ArenaEval.eval limit n env e) (ArenaEval.eval limit' n env e) := by
  induction n generalizing env e with
  | zero => exact c.exhausted
  | succ n ih => exact step ih env e

end ArenaCongruence

end Mapling
