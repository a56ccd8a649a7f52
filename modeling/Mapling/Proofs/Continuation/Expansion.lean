import Mapling.Continuation
import Mapling.Proofs.Continuation.Forms

/-! # Programs whose functions are all closures

Conversion to continuation-passing style makes a function of every primitive that is not called
by its name, and conditionals of the logical operators whose operands are not simple. Both can be
said without continuations (`Expr.expand`). An expression tracks its expansion: the two do the
same, step by step, until two primitives are compared, which are one primitive before the
expansion and may be two closures after it. -/

namespace Mapling

variable {p : Prim} {ev : Evaluator Ident Unit} {f l : NamedExpr} {c : Closure Ident Unit}
  {args : List NamedExpr}

namespace Expr

open Conversion (freshName)

/-! ## Expansion -/

def primParams : Prim → List Ident
  | .cons => [freshName 1, freshName 2]
  | _ => [freshName 1]

def primBody (p : Prim) : NamedExpr := mkApp (.prim .synthetic p) ((primParams p).map mkVar)

/-- The logical operator that is decided by a left operand `d`. -/
def decidedBy (d : Bool) : BinaryOp := if d then .or else .and

/-- A conditional that is `d` if the test is `d`, and `rest` if it is not. -/
def fork (s : Span) (d : Bool) (t rest : NamedExpr) : NamedExpr :=
  if d then .cond s t (.bool .synthetic true) rest else .cond s t rest (.bool .synthetic false)

/-- What is left of a logical operator after its left operand: the right one, which has to be a
boolean. -/
def lastOperand (s : Span) (d simple : Bool) (r : NamedExpr) : NamedExpr :=
  if simple then .binary s (decidedBy d) r (.bool .synthetic !d)
  else fork s d r (.binary .synthetic (decidedBy d) (.bool .synthetic !d) (.bool .synthetic !d))

mutual

/-- The expression with functions in place of the primitives that are not called by name, and
conditionals in place of the logical operators whose operands are not simple. -/
def expand : NamedExpr → NamedExpr
  | .int s k => .int s k
  | .bool s b => .bool s b
  | .null s => .null s
  | .var s x => .var s x
  | .prim _ p => mkMap (primParams p) (primBody p)
  | .map s params _ body => .map s params () (expand body)
  | .app s f args => .app s (if f.isPrim then f else expand f) (expandAll args)
  | .unary s op e => .unary s op (expand e)
  | .binary s op l r =>
    if l.isSimple && r.isSimple then .binary s op (expand l) (expand r)
    else match op with
      | .and => fork l.span false (expand l) (lastOperand r.span false r.isSimple (expand r))
      | .or => fork l.span true (expand l) (lastOperand r.span true r.isSimple (expand r))
      | op => .binary s op (expand l) (expand r)
  | .cond s t a b => .cond s (expand t) (expand a) (expand b)
  | .letIn s kind defs _ body => .letIn s kind (expandDefs defs) () (expand body)
  | .block s es => .block s (expandAll es)

def expandAll : List NamedExpr → List NamedExpr
  | [] => []
  | e :: es => expand e :: expandAll es

def expandDefs : List (Ident × NamedExpr) → List (Ident × NamedExpr)
  | [] => []
  | d :: ds => expandDef d :: expandDefs ds

def expandDef : Ident × NamedExpr → Ident × NamedExpr
  | (x, e) => (x, expand e)

end

theorem defNames_expandDefs (ds : List (Ident × NamedExpr)) :
    defNames (expandDefs ds) = defNames ds := by
  induction ds with
  | nil => rfl
  | cons d ds ih =>
    obtain ⟨x, e⟩ := d
    rw [expandDefs, expandDef]
    exact congrArg (x.name :: ·) ih

theorem defValues_expandDefs (ds : List (Ident × NamedExpr)) :
    defValues (expandDefs ds) = expandAll (defValues ds) := by
  induction ds with
  | nil => rfl
  | cons d ds ih =>
    obtain ⟨x, e⟩ := d
    rw [expandDefs, expandDef]
    exact congrArg (expand e :: ·) ih

theorem length_expandAll (es : List NamedExpr) : (expandAll es).length = es.length := by
  induction es with
  | nil => rfl
  | cons e es ih => rw [expandAll, List.length_cons, List.length_cons, ih]

theorem primParams_of_ne_cons (h : p ≠ .cons) : primParams p = [freshName 1] := by
  cases p with
  | cons => exact absurd rfl h
  | _ => rfl

theorem length_primParams (p : Prim) : (primParams p).length = p.parameters := by
  cases p <;> rfl

variable {l r : NamedExpr}

/-- An operator between simple operands stays. -/
theorem expand_binary_of_simple (s : Span) (op : BinaryOp) (h : (l.isSimple && r.isSimple) = true) :
    expand (.binary s op l r) = .binary s op (expand l) (expand r) := by
  cases op <;> simp only [expand, h, if_true]

/-- An operator that is not logical stays. -/
theorem expand_binary (s : Span) {op : BinaryOp} (hand : op ≠ .and) (hor : op ≠ .or)
    (l r : NamedExpr) : expand (.binary s op l r) = .binary s op (expand l) (expand r) := by
  cases op with
  | and => exact absurd rfl hand
  | or => exact absurd rfl hor
  | _ => simp only [expand, ite_self]

/-- A conjunction is expanded as the conditional that conversion makes of it. -/
theorem expand_conjunction (s : Span) (h : ¬ (l.isSimple && r.isSimple)) :
    expand (mkCond l (.binary r.span .and r (.bool .synthetic true)) (.bool .synthetic false)) =
      expand (.binary s .and l r) := by
  rw [expand, if_neg h]
  simp only [mkCond, expand, fork, lastOperand, decidedBy, isSimple, Bool.and_true]
  cases hr : r.isSimple <;> rfl

/-- A disjunction is expanded as the conditional that conversion makes of it. -/
theorem expand_disjunction (s : Span) (h : ¬ (l.isSimple && r.isSimple)) :
    expand (mkCond l (.bool .synthetic true) (.binary r.span .or r (.bool .synthetic false))) =
      expand (.binary s .or l r) := by
  rw [expand, if_neg h]
  simp only [mkCond, expand, fork, lastOperand, decidedBy, isSimple, Bool.and_true]
  cases hr : r.isSimple <;> rfl

end Expr

/-! ## Reading variables -/

theorem evalAs_var (marker : Option EvalError) (n : Nat) (env : Env) (sp : Span)
    (x : Ident) :
    evalAs marker (n + 1) env (.var sp x) =
      match env.find? x.name with
      | some b => Eval.force (watched marker n) b.name b.slot
      | none => throw (.unboundVariable x.name) := rfl

variable {env : Env}

/-- A variable whose slot holds a value. -/
theorem outcome_var_bind {α : Type} {marker : Option EvalError} {n : Nat}
    {sp : Span} {x : Ident} {b : Binding} {s : NamedStore} {v : NamedValue}
    (hb : env.find? x.name = some b) (hv : s.slot b.slot = .ready v)
    (f : NamedValue → Eval Ident Unit α) :
    outcome (evalAs marker (n + 1) env (.var sp x) >>= f) s = outcome (f v) s := by
  apply outcome_bind_of_ok
  rw [evalAs_var, hb]
  exact Eval.outcome_force hv _

/-- The name that a frame declares last. -/
theorem find?_cons_of_name {f : Frame} {x : String} {i : Nat} :
    Env.find? ((f ++ [⟨x, i⟩]) :: env) x = some ⟨x, i⟩ := by
  rw [Env.find?, List.reverse_append]
  simp

/-! ## Calls -/

/-- A primitive called by its name. -/
theorem evalAs_primApp (marker : Option EvalError) (n : Nat) (env : Env)
    (sp sp1 : Span) (p : Prim) (args : List NamedExpr) :
    evalAs marker (n + 2) env (.app sp (.prim sp1 p) args) =
      Eval.applyPrim (n + 1) (watched marker (n + 1)) .eager env p args :=
  rfl

/-- Apply the value of `f`. -/
def Eval.applyAs (marker : Option EvalError) (n : Nat) (env : Env)
    (f : NamedExpr) (args : List NamedExpr) : NamedValue → Eval Ident Unit NamedValue
  | .closure _ c => callFreely (watched marker n) .eager env f c args
  | .prim p => applyPrim n (watched marker n) .eager env p args
  | v => do throw (.notAFunction (← shown n v))

theorem evalAs_app (marker : Option EvalError) (n : Nat) (env : Env) (sp : Span)
    (f : NamedExpr) (args : List NamedExpr) :
    evalAs marker (n + 1) env (.app sp f args) =
      evalAs marker n env f >>= Eval.applyAs marker n env f args := by
  refine congrArg (evalAs marker n env f >>= ·) (funext fun v => ?_)
  cases v <;> rfl

theorem Fails.notAFunction (v : NamedValue) (s : NamedStore) :
    Fails (fun n => (do MonadExcept.throw (EvalError.notAFunction (← Eval.shown n v)) :
      Eval Ident Unit NamedValue)) s :=
  of_below EvalError.notAFunction (fun _ _ hn => Below.shown hn v)

/-- A function with as many arguments as it takes. -/
theorem Eval.callFreely_of_length_eq (h : args.length = c.arity) :
    Eval.callFreely ev .eager env f c args = (do
      let frame ← EvalOps.newFrame (c.params.map Ident.name)
      Eval.bindEach ev .eager env frame args
      ev .eager (frame :: c.env) c.body) := by
  rw [Eval.callFreely, Eval.applyClosureBy, if_neg (not_not_intro h)]

theorem Eval.callFreely_of_length_ne (h : args.length ≠ c.arity) :
    Eval.callFreely ev .eager env f c args = throw (.arityMismatch f.text c.arity args.length) := by
  rw [Eval.callFreely, Eval.applyClosureBy, if_pos h]

/-! ## Logical operators -/

/-- The right operand of a logical operator has to be a boolean. -/
def Eval.tested (n : Nat) (op : BinaryOp) : NamedValue → Eval Ident Unit NamedValue
  | .bool c => pure (.bool c)
  | w => mismatch n op.symbol w

/-- Go on with `rest`, unless the left operand decides. -/
def Eval.decided (n : Nat) (d : Bool) (v : NamedValue) (rest : Eval Ident Unit NamedValue) :
    Eval Ident Unit NamedValue :=
  match v with
  | .bool b => if b = d then pure (.bool b) else rest
  | v => mismatch n (Expr.decidedBy d).symbol v

/-- A logical operator tests its left operand, and then its right one if it has to. -/
theorem evalAs_logical (marker : Option EvalError) (n : Nat) (env : Env) (sp : Span)
    (d : Bool) (l r : NamedExpr) :
    evalAs marker (n + 1) env (.binary sp (Expr.decidedBy d) l r) =
      evalAs marker n env l >>= fun v =>
        Eval.decided n d v (evalAs marker n env r >>= Eval.tested n (Expr.decidedBy d)) := by
  have hstep : evalAs marker (n + 1) env (.binary sp (Expr.decidedBy d) l r) =
      Eval.logical n (watched marker n) .eager env (Expr.decidedBy d) d
        l r := by
    cases d <;> rfl
  rw [hstep, Eval.logical]
  refine congrArg (evalAs marker n env l >>= ·) (funext fun v => ?_)
  cases v with
  | bool b =>
    refine congrArg (fun x => if b = d then pure (Value.bool b) else x) ?_
    refine congrArg (evalAs marker n env r >>= ·) (funext fun w => ?_)
    cases w <;> rfl
  | _ => rfl

theorem evalAs_fork (marker : Option EvalError) (n : Nat) (env : Env) (sp : Span)
    (d : Bool) (t rest : NamedExpr) :
    evalAs marker (n + 1) env (Expr.fork sp d t rest) =
      evalAs marker n env t >>= fun v =>
      Eval.branch n v (evalAs marker n env (if d then .bool .synthetic true else rest))
        (evalAs marker n env (if d then rest else .bool .synthetic false)) := by
  cases d <;> exact evalAs_cond _ _ _ _ _ _ _

/-! ## The scheme -/

/-- Functions and their expansions, primitives and the functions they become. Comparing two
primitives raises the error `marker`. -/
def expansion (marker : EvalError) : Scheme where
  names _ := True
  surplus := 0
  code ps b ps' b' := ps' = ps ∧ b' = b.expand
  prim p ps' b' := ps' = Expr.primParams p ∧ b' = Expr.primBody p
  marker := some marker
  code_arity h := by rw [h.1]; rfl
  prim_arity h := by rw [h.1]; exact Expr.length_primParams _
  marked _ := rfl

namespace Scheme

variable {σ : Scheme} {N M B : Nat} {S : Stage} {F G : Rest}

def Tests (σ : Scheme) (B : Nat) (op : BinaryOp) (r rest : NamedExpr) : Prop :=
  ∀ N M S env env' F G, N + M ≤ B → σ.Related S → σ.Envs S.links env env' →
    σ.Continues N M S F G →
    Meets σ.goal N M
      (fun n => evalAs σ.marker n env r >>= fun w => Eval.tested n op w >>= F n) S.left
      (fun m => evalAs none m env' rest >>= G m) S.right

theorem Continues.spareRight (h : σ.Continues N M S F G) :
    σ.Continues N (M - 1) S F (fun m => G (m + 1)) :=
  fun S' v v' hlater hS' hv => (h S' v v' hlater hS' hv).spareRight

variable {env1' env' : Env} {marker : EvalError} {args' args : List NamedExpr}
  {r : NamedExpr}

/-- A logical operator whose left operand is tested first. -/
theorem Tracks.fork (sp sp' : Span) (d : Bool) {l' rest : NamedExpr} (hl : σ.Tracks B l l')
    (hr : σ.Tests B (Expr.decidedBy d) r rest) :
    σ.Tracks B (.binary sp (Expr.decidedBy d) l r) (Expr.fork sp' d l' rest) := by
  refine of_step (fun N M S env env' F G hB hS henv hnext => ?_)
  simp only [evalAs_logical, evalAs_fork, bind_assoc]
  refine hl N M S env env' _ _ (Nat.le_of_lt hB) hS henv (fun S' v v' hlater hS' hv => ?_)
  cases hv with
  | bool b =>
    by_cases hb : b = d
    · subst hb
      have hliteral : S'.Meets σ N M (fun n => F n (.bool b))
          (fun m => evalAs none m env' (.bool .synthetic b) >>= G m) :=
        .right rfl ((hnext.later hlater).now hS' (.bool b)).spareRight
      simp only [Eval.decided, if_true, pure_bind]
      cases b <;> exact hliteral
    · have hrest := hr N M S' env env' F G (Nat.le_of_lt hB) hS' (henv.mono hlater.grows)
        (hnext.later hlater)
      simp only [Eval.decided, hb, if_false, bind_assoc]
      cases b <;> cases d <;> first | exact absurd rfl hb | exact hrest
  | _ => exact .of_first_fails (.mismatch _ _ _) (.mismatch _ _ _)

/-- The last operand of a logical operator is tested on both sides. -/
theorem Tests.lastOperand (sp : Span) (d simple : Bool) {r' : NamedExpr} (hr : σ.Tracks B r r') :
    σ.Tests B (Expr.decidedBy d) r (Expr.lastOperand sp d simple r') := by
  intro N M S env env' F G hB hS henv hnext
  have hnow : ∀ S' c, S.Later S' → σ.Related S' → S'.Meets σ N (M - 1) (fun n => F n (.bool c))
      (fun m => G (m + 1) (.bool c)) :=
    fun S' c hlater hS' => (hnext.spareRight.later hlater).now hS' (.bool c)
  refine .right rfl ?_
  cases simple with
  | true =>
    simp only [Expr.lastOperand, if_true, evalAs_logical, bind_assoc]
    refine hr N (M - 1) S env env' _ _ (by omega) hS henv (fun S' v v' hlater hS' hv => ?_)
    cases hv with
    | bool c =>
      by_cases hc : c = d
      · simp only [Eval.decided, hc, if_true, pure_bind]
        exact hnow S' d hlater hS'
      · have heq : c = !d := by cases c <;> cases d <;> simp_all
        simp only [Eval.decided, hc, if_false, bind_assoc]
        rw [heq]
        exact .right rfl (hnow S' _ hlater hS').spareRight
    | _ => exact .of_first_fails (.mismatch _ _ _) (.mismatch _ _ _)
  | false =>
    simp only [Expr.lastOperand, Bool.false_eq_true, if_false, evalAs_fork, bind_assoc]
    refine hr N (M - 1) S env env' _ _ (by omega) hS henv (fun S' v v' hlater hS' hv => ?_)
    cases hv with
    | bool c =>
      by_cases hc : c = d
      · subst hc
        have hliteral := Meets.right
          (y := fun m => evalAs none m env' (.bool .synthetic c) >>=
          G (m + 1)) rfl (hnow S' c hlater hS').spareRight
        cases c <;> exact hliteral
      · have heq : c = !d := by cases c <;> cases d <;> simp_all
        have hagain := (hnow S' (!d) hlater hS').spareRight.spareRight
        subst heq
        cases d <;> exact .right rfl (.right rfl hagain)
    | _ => exact .of_first_fails (.mismatch _ _ _) (.mismatch _ _ _)

/-- A call of a function and of its expansion. -/
theorem meets_call {ps : List Ident} {b : NamedExpr} {env1 : Env}
    (hbody : (expansion marker).Tracks (N + M) b b.expand)
    (hargs : List.Forall₂ ((expansion marker).Tracks B) args args') (hB : N + M ≤ B)
    (hS : (expansion marker).Related S) (henv : (expansion marker).Envs S.links env env')
    (henv1 : (expansion marker).Envs S.links env1 env1')
    (hnext : (expansion marker).Continues N M S F G) (f f' : NamedExpr) :
    S.Meets (expansion marker) N M
      (fun n => Eval.callFreely (watched (some marker) n) .eager env f ⟨ps, (), b, env1⟩ args
        >>= F n)
      (fun m => Eval.callFreely (watched none m) .eager env' f'
        ⟨ps, (), b.expand, env1'⟩ args' >>= G m) := by
  by_cases hlength : args.length = ps.length
  · have hlength' : args'.length = ps.length := hargs.length_eq ▸ hlength
    simp only [Eval.callFreely_of_length_eq (c := ⟨ps, (), b, env1⟩) hlength,
      Eval.callFreely_of_length_eq (c := ⟨ps, (), b.expand, env1'⟩) hlength', bind_assoc]
    refine .congr_left (fun n => outcome_declare_bind _ _ _) (.congr_right
      (fun m => outcome_declare_bind _ _ _) ?_)
    have hlinked : List.Forall₂ (Linked (S.newFrame (ps.map Ident.name)).links)
        (frameAt S.left.slots.size (ps.map Ident.name))
        (frameAt S.right.slots.size (ps.map Ident.name)) :=
      linked_frameAt (List.subset_append_left _ _)
    have hlater := S.later_newFrame (ps.map Ident.name)
    refine meets_bindEach (σ := expansion marker) hargs hB (hlinked.imp fun _ _ hb => hb.2)
      (fun b hb => slot_ge_of_mem_frameAt hb) (fun b hb => slot_ge_of_mem_frameAt hb) hlater
      (Stage.related_newFrame hS _) (henv.mono hlater.grows) (fun S' hlater' hgrown hS' => ?_)
    have hinner := Envs.cons_linked (σ := expansion marker)
      (hlinked.imp fun _ _ hb => ⟨hb.1, hgrown.links hb.2⟩) (henv1.mono hlater'.grows)
    exact hbody N M S' _ _ _ _ le_rfl hS' hinner (hnext.later hlater')
  · have hlength' : args'.length ≠ ps.length := hargs.length_eq ▸ hlength
    simp only [Eval.callFreely_of_length_ne (c := ⟨ps, (), b, env1⟩) hlength,
      Eval.callFreely_of_length_ne (c := ⟨ps, (), b.expand, env1'⟩) hlength']
    exact .of_first_fails (.throw _) (.throw _)

/-- A call of a primitive with one argument and of the function it becomes. -/
theorem meets_primFunction_one (hp : p = .arity → σ.surplus = 0) (hcons : p ≠ .cons)
    {e e' : NamedExpr} (he : σ.Tracks B e e') (hB : N + M ≤ B) (hS : σ.Related S)
    (henv : σ.Envs S.links env env') (hnext : σ.Continues N M S F G) (f' : NamedExpr) :
    S.Meets σ N M (fun n => Eval.applyPrim n (watched σ.marker n) .eager env p [e] >>= F n)
      (fun m => Eval.callFreely (watched none m) .eager env' f'
        ⟨Expr.primParams p, (), Expr.primBody p, env1'⟩ [e'] >>= G m) := by
  have hone := Prim.parameters_of_ne_cons hcons
  have hparams := Expr.primParams_of_ne_cons hcons
  have hlength : [e'].length = (Expr.primParams p).length := by rw [hparams]; rfl
  simp only [Eval.applyPrim_one _ _ _ hone, Eval.callFreely_of_length_eq
    (c := ⟨Expr.primParams p, (), Expr.primBody p, env1'⟩) hlength, bind_assoc]
  refine .congr_right (fun m => outcome_declare_bind _ _ _) ?_
  simp only [Expr.primBody, hparams, List.map_cons, List.map_nil, frameAt,
    Eval.bindEach_cons _ _ Machine.isEager_eager, bind_assoc]
  have hlater1 := S.later_newFrameRight [(Conversion.freshName 1).name]
  refine he N M (S.newFrameRight _) env env' _ _ hB (Stage.related_newFrameRight hS _)
    (henv.mono hlater1.grows) (fun S' v v' hlater hS' hv => ?_)
  -- the slot of the frame on the right is filled, and the body of the function reads it
  have hsize : S.right.slots.size <
      (S.newFrameRight [(Conversion.freshName 1).name]).right.slots.size := by
    rw [Stage.newFrameRight, Store.size_newFrame]
    exact Nat.lt_succ_self _
  have hfree := hlater.notMem_right hsize (fun i => hS.slot_notMem_right le_rfl i)
  have hT := Stage.related_fillRight hS' hfree v'
  have hlaterT : S.Later (S'.fillRight S.right.slots.size v') :=
    (hlater1.trans hlater).setRight le_rfl _
  have hslot := S'.slot_fillRight (Nat.lt_of_lt_of_le hsize hlater.right.size) v'
  have hnextT := (hnext.later hlaterT).spareRight
  refine .congr_right (fun m => outcome_bind_of_ok _ (outcome_modify _ _))
    (.right rfl (.right rfl ?_))
  have hbody : ∀ m, outcome (evalAs none (m + 2)
      ([⟨(Conversion.freshName 1).name, S.right.slots.size⟩] :: env1')
      (Expr.mkApp (.prim .synthetic p) [Expr.mkVar (Conversion.freshName 1)]) >>= G (m + 2))
        (S'.fillRight S.right.slots.size v').right =
      outcome (Eval.primitive (m + 1) (watched none (m + 1)) p v' >>=
        G (m + 2)) (S'.fillRight S.right.slots.size v').right := by
    intro m
    rw [Expr.mkApp, evalAs_primApp, Eval.applyPrim_one _ _ _ hone, bind_assoc]
    exact outcome_var_bind (find?_cons_of_name (f := [])) hslot _
  refine .congr_right hbody ?_
  have hvT : σ.Same (S'.fillRight S.right.slots.size v').links v v' := hv
  by_cases harity : p = .arity
  · subst harity
    refine Meets.spareRight (y := fun m => Eval.primitive m
      (watched none m) .arity v' >>= G (m + 1)) ?_
    refine meets_arity hvT (fun a _ => ?_)
    rw [hp rfl]
    exact hnextT.now hT (.int a)
  · exact (meets_primitive hT hnextT harity hvT).spareRight

/-- A call of `cons` and of the function it becomes. -/
theorem meets_primFunction_cons {h h' t t' : NamedExpr} (hh : σ.Tracks B h h')
    (ht : σ.Tracks B t t') (hB : N + M ≤ B) (hS : σ.Related S) (henv : σ.Envs S.links env env')
    (hnext : σ.Continues N M S F G) (f' : NamedExpr) :
    S.Meets σ N M
      (fun n => Eval.applyPrim n (watched σ.marker n) .eager env .cons [h, t] >>= F n)
      (fun m => Eval.callFreely (watched none m) .eager env' f'
        ⟨Expr.primParams .cons, (), Expr.primBody .cons, env1'⟩ [h', t'] >>= G m) := by
  simp only [Eval.applyPrim, Eval.cons_value _ _ Machine.isEager_eager, Eval.callFreely_of_length_eq
    (c := ⟨Expr.primParams .cons, (), Expr.primBody .cons, env1'⟩)
    (show [h', t'].length = (Expr.primParams .cons).length from rfl), bind_assoc]
  refine .congr_right (fun m => outcome_declare_bind _ _ _) ?_
  simp only [Expr.primBody, Expr.primParams, List.map_cons, List.map_nil, frameAt,
    Eval.bindEach_cons _ _ Machine.isEager_eager, bind_assoc]
  have hlater1 := S.later_newFrameRight
    [(Conversion.freshName 1).name, (Conversion.freshName 2).name]
  refine hh N M (S.newFrameRight _) env env' _ _ hB (Stage.related_newFrameRight hS _)
    (henv.mono hlater1.grows) (fun S1 v v' hl1 hS1 hv => ?_)
  have hsize : (S.newFrameRight [(Conversion.freshName 1).name,
      (Conversion.freshName 2).name]).right.slots.size = S.right.slots.size + 2 :=
    Store.size_newFrame _ _
  have hsize1 : S.right.slots.size + 2 ≤ S1.right.slots.size := hsize ▸ hl1.right.size
  -- the first slot of the frame on the right is filled, and then the second
  have hS2 := Stage.related_fillRight hS1 (hl1.notMem_right (by omega)
    (fun i => hS.slot_notMem_right le_rfl i)) v'
  have hl2 : S.Later (S1.fillRight S.right.slots.size v') :=
    (hlater1.trans hl1).setRight le_rfl _
  refine .congr_right (fun m => outcome_bind_of_ok _ (outcome_modify _ _)) ?_
  refine ht N M (S1.fillRight S.right.slots.size v') env env' _ _ hB hS2 (henv.mono hl2.grows)
    (fun S3 w w' hl3 hS3 hw => ?_)
  have hsize3 : S.right.slots.size + 2 ≤ S3.right.slots.size := by
    have := hl3.right.size
    rw [Stage.fillRight, Store.size_setSlot] at this
    omega
  have hfree : ∀ i, .slot i (S.right.slots.size + 1) ∉ S3.links := by
    refine hl3.notMem_right ?_ (hl1.notMem_right (by omega)
      (fun i => hS.slot_notMem_right (Nat.le_succ _) i))
    rw [Stage.fillRight, Store.size_setSlot]
    omega
  have hS4 := Stage.related_fillRight hS3 hfree w'
  have hl4 : S.Later (S3.fillRight (S.right.slots.size + 1) w') :=
    (hl2.trans hl3).setRight (Nat.le_succ _) _
  have hslot : (S3.fillRight (S.right.slots.size + 1) w').right.slot S.right.slots.size =
      .ready v' := by
    rw [Stage.fillRight, Store.slot_setSlot, if_neg (by omega), hl3.right.slot _ ?_]
    · exact S1.slot_fillRight (by omega) v'
    · rw [Stage.fillRight, Store.size_setSlot]
      omega
  have hslot' := S3.slot_fillRight (j := S.right.slots.size + 1) (by omega) w'
  refine .congr_right (fun m => outcome_bind_of_ok _ (outcome_modify _ _))
    (.right rfl (.right rfl ?_))
  have hbody : ∀ m, outcome (evalAs none (m + 2)
      ([⟨(Conversion.freshName 1).name, S.right.slots.size⟩,
        ⟨(Conversion.freshName 2).name, S.right.slots.size + 1⟩] :: env1')
      (Expr.mkApp (.prim .synthetic .cons)
        [Expr.mkVar (Conversion.freshName 1), Expr.mkVar (Conversion.freshName 2)]) >>= G (m + 2))
        (S3.fillRight (S.right.slots.size + 1) w').right =
      outcome ((if w'.isList then modifyGet (fun s => s.newPair (.ready v') (.ready w'))
        else (do throw (.notAList Prim.cons.name (← Eval.shown (m + 1) w')))) >>= G (m + 2))
        (S3.fillRight (S.right.slots.size + 1) w').right := by
    intro m
    rw [Expr.mkApp, evalAs_primApp]
    simp only [Eval.applyPrim, Eval.cons_value _ _ Machine.isEager_eager, bind_assoc]
    refine (outcome_var_bind
      (b := ⟨(Conversion.freshName 1).name, S.right.slots.size⟩) ?_ hslot _).trans
      (outcome_var_bind (find?_cons_of_name (f := [_])) hslot' _)
    rfl
  refine .congr_right hbody ?_
  have hwT : σ.Same (S3.fillRight (S.right.slots.size + 1) w').links w w' := hw
  exact (meets_pair hS4 (hnext.later hl4).spareRight (hv.mono hl3.grows) hwT).spareRight

/-- A call of a primitive and of the function it becomes. -/
theorem meets_primFunction (hp : p = .arity → σ.surplus = 0)
    (hargs : List.Forall₂ (σ.Tracks B) args args') (hB : N + M ≤ B) (hS : σ.Related S)
    (henv : σ.Envs S.links env env') (hnext : σ.Continues N M S F G) (f' : NamedExpr) :
    S.Meets σ N M
      (fun n => Eval.applyPrim n (watched σ.marker n) .eager env p args >>= F n)
      (fun m => Eval.callFreely (watched none m) .eager env' f'
        ⟨Expr.primParams p, (), Expr.primBody p, env1'⟩ args' >>= G m) := by
  by_cases hlength : args.length = p.parameters
  · by_cases hcons : p = .cons
    · subst hcons
      obtain ⟨h, t, h', t', rfl, rfl, hh, ht⟩ := forall₂_two hargs hlength
      exact meets_primFunction_cons hh ht hB hS henv hnext f'
    · obtain ⟨e, e', rfl, rfl, he⟩ :=
        forall₂_one hargs (hlength.trans (Prim.parameters_of_ne_cons hcons))
      exact meets_primFunction_one hp hcons he hB hS henv hnext f'
  · have hlength' : args'.length ≠ (Expr.primParams p).length := by
      rw [Expr.length_primParams, ← hargs.length_eq]
      exact hlength
    simp only [Eval.applyPrim_of_length_ne _ _ _ hlength, Eval.callFreely_of_length_ne
      (c := ⟨Expr.primParams p, (), Expr.primBody p, env1'⟩) hlength']
    exact .of_first_fails (.throw _) (.throw _)

/-- Every expression tracks its expansion if fewer levels of recursion are followed. -/
def ExpandsBelow (marker : EvalError) (B : Nat) : Prop :=
  ∀ K, K < B → ∀ b, (expansion marker).Tracks K b b.expand

/-- A call of a value that is not a primitive by name. -/
theorem Tracks.expandApp (hbody : ExpandsBelow marker B) (sp sp' : Span) {f' : NamedExpr}
    (hf : (expansion marker).Tracks B f f')
    (hargs : List.Forall₂ ((expansion marker).Tracks B) args args') :
    (expansion marker).Tracks B (.app sp f args) (.app sp' f' args') := by
  refine of_step (fun N M S env env' F G hB hS henv hnext => ?_)
  simp only [evalAs_app, bind_assoc]
  refine hf N M S env env' _ _ (Nat.le_of_lt hB) hS henv (fun S' v v' hlater hS' hv => ?_)
  have henv' := henv.mono hlater.grows
  have hnext' := hnext.later hlater
  cases hv with
  | closure _ hcode hclosed =>
    obtain ⟨rfl, rfl⟩ := hcode
    exact meets_call (hbody _ hB _) hargs (Nat.le_of_lt hB) hS' henv' hclosed hnext' f f'
  | prim _ hcode =>
    obtain ⟨rfl, rfl⟩ := hcode
    exact meets_primFunction (fun _ => rfl) hargs (Nat.le_of_lt hB) hS' henv' hnext' f'
  | _ => exact .of_first_fails (.notAFunction _ _) (.notAFunction _ _)

/-- A binary operator; the logical ones become conditionals unless both operands are simple. -/
theorem Tracks.expandBinary (sp : Span) (op : BinaryOp)
    (hl : (expansion marker).Tracks B l l.expand) (hr : (expansion marker).Tracks B r r.expand) :
    (expansion marker).Tracks B (.binary sp op l r) (Expr.expand (.binary sp op l r)) := by
  have hplain : (expansion marker).Tracks B (.binary sp op l r)
      (.binary sp op l.expand r.expand) := .binary sp sp op hl hr
  by_cases hs : (l.isSimple && r.isSimple) = true
  · rw [Expr.expand_binary_of_simple sp op hs]
    exact hplain
  · by_cases hand : op = .and
    · subst hand
      rw [Expr.expand, if_neg hs]
      exact .fork sp l.span false hl (.lastOperand r.span false r.isSimple hr)
    · by_cases hor : op = .or
      · subst hor
        rw [Expr.expand, if_neg hs]
        exact .fork sp l.span true hl (.lastOperand r.span true r.isSimple hr)
      · rw [Expr.expand_binary sp hand hor]
        exact hplain

mutual

/-- An expression and its expansion go together, by recursion on the expression. -/
theorem tracks_expand_of_lt {marker : EvalError} (hbody : ExpandsBelow marker B) :
    (e : NamedExpr) → (expansion marker).Tracks B e e.expand
  | .int s k => .int s s k
  | .bool s b => .bool s s b
  | .null s => .null s s
  | .var s x => .var s s trivial
  | .prim s p => .prim s _ ⟨rfl, rfl⟩
  | .map s params () body => .map s s ⟨rfl, rfl⟩
  | .app s f args => by
      have hargs := tracksAll_expand_of_lt hbody args
      rw [Expr.expand]
      by_cases hf : f.isPrim = true
      · rw [if_pos hf]
        obtain ⟨sp, p, rfl⟩ : ∃ sp p, f = .prim sp p := by
          cases f with
          | prim sp p => exact ⟨sp, p, rfl⟩
          | _ => cases hf
        exact .primApp s s sp sp (fun _ => rfl) hargs
      · rw [if_neg hf]
        exact .expandApp hbody s s (tracks_expand_of_lt hbody f) hargs
  | .unary s op e => .unary s s op (tracks_expand_of_lt hbody e)
  | .binary s op l r => .expandBinary s op (tracks_expand_of_lt hbody l)
      (tracks_expand_of_lt hbody r)
  | .cond s t a b =>
    .cond s s (tracks_expand_of_lt hbody t) (tracks_expand_of_lt hbody a)
      (tracks_expand_of_lt hbody b)
  | .letIn s kind defs () body => by
      refine .letIn s s kind (Expr.defNames_expandDefs defs).symm ?_
        (tracks_expand_of_lt hbody body)
      rw [Expr.defValues_expandDefs]
      exact tracksDefs_expand_of_lt hbody defs
  | .block s es => .block s s (tracksAll_expand_of_lt hbody es)

theorem tracksAll_expand_of_lt {marker : EvalError} (hbody : ExpandsBelow marker B) :
    (es : List NamedExpr) →
    List.Forall₂ ((expansion marker).Tracks B) es (Expr.expandAll es)
  | [] => .nil
  | e :: es => .cons (tracks_expand_of_lt hbody e) (tracksAll_expand_of_lt hbody es)

theorem tracksDefs_expand_of_lt {marker : EvalError} (hbody : ExpandsBelow marker B) :
    (ds : List (Ident × NamedExpr)) →
    List.Forall₂ ((expansion marker).Tracks B) (Expr.defValues ds)
      (Expr.expandAll (Expr.defValues ds))
  | [] => .nil
  | d :: ds => .cons (tracksDef_expand_of_lt hbody d) (tracksDefs_expand_of_lt hbody ds)

theorem tracksDef_expand_of_lt {marker : EvalError} (hbody : ExpandsBelow marker B) :
    (d : Ident × NamedExpr) →
    (expansion marker).Tracks B d.2 d.2.expand
  | (_, e) => tracks_expand_of_lt hbody e

end

/-- An expression tracks its expansion. -/
theorem tracks_expand (marker : EvalError) (B : Nat) (e : NamedExpr) :
    (expansion marker).Tracks B e e.expand := by
  induction B using Nat.strong_induction_on generalizing e with
  | _ B ih => exact tracks_expand_of_lt (fun K hK b => ih K hK b) e

end Scheme

end Mapling
