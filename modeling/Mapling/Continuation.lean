import Mapling.Diagnostic
import Mapling.Expr

/-! # Continuation-passing style

Every function of a converted program takes one more parameter, a continuation, and every call
of something other than a primitive by name passes one. The whole program is converted with the
identity as its continuation.

A simple expression is reshaped in place. Any other is broken into a chain of definitions whose
values are evaluated in the order of the text. The names the conversion makes are a colon and a
number, which no source text can contain.

The conversion also converts expressions that are not part of the given one: calls with
temporaries for operands, and the conditionals that stand for conjunction and disjunction. A
weight that each of these steps lowers shows that it ends. -/

namespace Mapling

/-- A recursive definition whose value calls a function outside the body of a function. -/
structure ConversionFault where
  name : String
deriving DecidableEq, Repr

namespace ConversionFault

def message (f : ConversionFault) : String :=
  "letrec definition of '" ++ f.name ++ "' must not call a function outside a map body"

def diagnostic (f : ConversionFault) (span : Span) : Diagnostic :=
  .ofCode .nonSimpleRecursion f.message span none

end ConversionFault

namespace Expr

variable {V L : Type}

/-! ## Weights -/

mutual

/-- A bound on the work of converting an expression. -/
def weight : Expr V L → Nat
  | .int _ _ | .bool _ _ | .null _ | .var _ _ | .prim _ _ => 0
  | .unary _ _ e => 1 + 2 * e.weight
  | .binary _ op l r =>
    if (op = .and ∨ op = .or) ∧ ¬ (l.isSimple ∧ r.isSimple) then
      3 + 2 * l.weight + 3 * r.weight
    else 1 + 2 * l.weight + 2 * r.weight
  | .app _ f args => 2 + 2 * f.weight + listWeight args
  | .map _ _ _ body => 1 + body.weight
  | .cond _ t a b => 1 + 2 * t.weight + a.weight + b.weight
  | .letIn _ _ defs _ body => 1 + defsWeight defs + body.weight
  | .block _ es => 1 + listWeight es

def listWeight : List (Expr V L) → Nat
  | [] => 0
  | e :: es => 2 * e.weight + 1 + listWeight es

def defsWeight : List (Ident × Expr V L) → Nat
  | [] => 0
  | d :: ds => defWeight d + defsWeight ds

def defWeight : Ident × Expr V L → Nat
  | (_, e) => 2 * e.weight + 1

end

theorem one_le_weight {e : Expr V L} (h : ¬ e.isAtomic) : 1 ≤ e.weight := by
  cases e <;> simp_all [isAtomic, weight] <;> (try split) <;> omega

mutual

theorem two_le_weight (e : Expr V L) (h : ¬ e.isSimple) : 2 ≤ e.weight := by
  match e with
  | .int _ _ | .bool _ _ | .null _ | .var _ _ | .prim _ _ | .map _ _ _ _ => simp [isSimple] at h
  | .unary _ _ e =>
    have := two_le_weight e (by simpa [isSimple] using h)
    simp only [weight]; omega
  | .binary _ op l r =>
    simp only [isSimple, Bool.and_eq_true] at h
    by_cases hl : l.isSimple
    · have := two_le_weight r (fun hr => h ⟨hl, hr⟩)
      simp only [weight]; split <;> omega
    · have := two_le_weight l hl
      simp only [weight]; split <;> omega
  | .app _ _ _ => simp only [weight]; omega
  | .cond _ t a b =>
    simp only [isSimple, Bool.and_eq_true] at h
    by_cases ht : t.isSimple
    · by_cases ha : a.isSimple
      · have := two_le_weight b (fun hb => h ⟨⟨ht, ha⟩, hb⟩)
        simp only [weight]; omega
      · have := two_le_weight a ha
        simp only [weight]; omega
    · have := two_le_weight t ht
      simp only [weight]; omega
  | .letIn _ _ defs _ body =>
    simp only [isSimple, Bool.and_eq_true] at h
    by_cases hd : defsSimple defs
    · have := two_le_weight body (fun hb => h ⟨hd, hb⟩)
      simp only [weight]; omega
    · have := one_le_defsWeight defs hd
      simp only [weight]; omega
  | .block _ es =>
    have := one_le_listWeight es (by simpa [isSimple] using h)
    simp only [weight]; omega

theorem one_le_listWeight (es : List (Expr V L)) (h : ¬ allSimple es) : 1 ≤ listWeight es := by
  match es with
  | [] => simp [allSimple] at h
  | _ :: _ => simp only [listWeight]; omega

theorem one_le_defsWeight (ds : List (Ident × Expr V L)) (h : ¬ defsSimple ds) :
    1 ≤ defsWeight ds := by
  match ds with
  | [] => simp [defsSimple] at h
  | (_, _) :: _ => simp only [defsWeight, defWeight]; omega

end

end Expr

/-! ## Names and temporaries -/

/-- What a conversion keeps: how many names it has made, and what it had to refuse. -/
structure Naming where
  count : Nat
  faults : List (ConversionFault × Span)
deriving Repr

abbrev Conversion := StateM Naming

namespace Conversion

open Mapling.Expr

def freshName (n : Nat) : Ident := .synthetic (":" ++ toString n)

def fresh : Conversion Ident :=
  modifyGet (fun s => (freshName (s.count + 1), { s with count := s.count + 1 }))

def freshNames : Nat → Conversion (List Ident)
  | 0 => return []
  | n + 1 => do
    let x ← fresh
    return x :: (← freshNames n)

def refuse (x : Ident) : Conversion Unit :=
  modify (fun s => { s with faults := s.faults ++ [(⟨x.name⟩, x.span)] })

/-- The operand to use in place of `e` when `n` names have been made: itself if it is atomic,
and otherwise a temporary. -/
def standIn (n : Nat) (e : NamedExpr) : NamedExpr :=
  if e.isAtomic then e else mkVar (freshName (n + 1))

/-- How many names have been made after that. -/
def countAfter (n : Nat) (e : NamedExpr) : Nat := if e.isAtomic then n else n + 1

def standIns (n : Nat) : List NamedExpr → List NamedExpr
  | [] => []
  | e :: es => standIn n e :: standIns (countAfter n e) es

/-- The temporaries among the operands to use, with what they stand for, in order. -/
def temporaries (n : Nat) : List NamedExpr → List (Ident × NamedExpr)
  | [] => []
  | e :: es =>
    if e.isAtomic then temporaries n es
    else (freshName (n + 1), e) :: temporaries (n + 1) es

/-- Make the names of the temporaries for the operands `es`; the result is how many names had
been made before. -/
def reserve (es : List NamedExpr) : Conversion Nat :=
  modifyGet (fun s => (s.count, { s with count := s.count + (temporaries s.count es).length }))

/-- The definitions `defs` with other values. -/
def rebind (defs : List (Ident × NamedExpr)) (values : List NamedExpr) :
    List (Ident × NamedExpr) := (defs.map Prod.fst).zip values

/-- A continuation that may be used more than once or under a definition, and what to put around
the expression it is used in: a variable is used as it is, anything else is given a name. -/
def share (k : NamedExpr) : Conversion (NamedExpr × (NamedExpr → NamedExpr)) := do
  match k with
  | .var _ _ => return (k, id)
  | k =>
    let x ← fresh
    return (mkVar x, fun body => mkLet [(x, k)] body)

/-- The first definition whose value is not simple. -/
def firstNonSimple (defs : List (Ident × NamedExpr)) : Option Ident :=
  (defs.find? (fun d => !d.2.isSimple)).map Prod.fst

/-- A primitive as a function with a continuation. The arity of a function does not count its
continuation. -/
def reshapePrim (p : Prim) : Conversion NamedExpr := do
  let params ← freshNames p.parameters
  let k ← fresh
  let result := mkApp (.prim .synthetic p) (params.map mkVar)
  let result :=
    if p = .arity then mkBinary .sub result (.int .synthetic 1) else result
  return mkMap (params ++ [k]) (mkApp (mkVar k) [result])

def isArity : NamedExpr → Bool
  | .prim _ .arity => true
  | _ => false

/-! ## The weight of temporaries -/

/-- A bound on the work of converting a chain of definitions. -/
def chainWeight : List (Ident × NamedExpr) → Nat
  | [] => 0
  | t :: ts => t.2.weight + 1 + chainWeight ts

theorem weight_standIn (n : Nat) (e : NamedExpr) :
    (standIn n e).weight = if e.isAtomic then e.weight else 0 := by
  unfold standIn; split <;> simp [mkVar, weight]

theorem chainWeight_add_le (n : Nat) (es : List NamedExpr) :
    chainWeight (temporaries n es) + listWeight (standIns n es) ≤ listWeight es := by
  induction es generalizing n with
  | nil => simp [temporaries, standIns, chainWeight, listWeight]
  | cons e es ih =>
    by_cases he : e.isAtomic
    · have := ih n
      simp only [temporaries, standIns, listWeight, weight_standIn, countAfter, he, if_true]
      omega
    · have := ih (n + 1)
      have := one_le_weight he
      simp only [temporaries, standIns, listWeight, weight_standIn, countAfter, he, chainWeight,
        if_neg, not_false_eq_true, Bool.false_eq_true]
      omega

theorem isSimple_of_isAtomic {e : NamedExpr} (h : e.isAtomic) : e.isSimple := by
  cases e <;> simp_all [isAtomic, isSimple]

theorem isSimple_standIn (n : Nat) (e : NamedExpr) : (standIn n e).isSimple := by
  unfold standIn
  split
  · exact isSimple_of_isAtomic (by assumption)
  · rfl

theorem chainWeight_add_lt (n : Nat) (es : List NamedExpr) (h : ¬ allSimple es) :
    chainWeight (temporaries n es) + listWeight (standIns n es) < listWeight es := by
  induction es generalizing n with
  | nil => simp [allSimple] at h
  | cons e es ih =>
    by_cases he : e.isAtomic
    · have hs := isSimple_of_isAtomic he
      have := ih n (by simpa [allSimple, hs] using h)
      simp only [temporaries, standIns, listWeight, weight_standIn, countAfter, he, if_true]
      omega
    · simp only [temporaries, standIns, listWeight, weight_standIn, countAfter, he, chainWeight,
        if_neg, not_false_eq_true, Bool.false_eq_true]
      have h1 := one_le_weight he
      by_cases hs : e.isSimple
      · have := ih (n + 1) (by simpa [allSimple, hs] using h)
        omega
      · have := two_le_weight e hs
        have := chainWeight_add_le (n + 1) es
        omega

/-- Operands that stand in leave no work to an operator. -/
theorem chainWeight_add_binary_lt (n : Nat) (s : Span) (op : BinaryOp) (l r : NamedExpr)
    (h : ¬ (Expr.binary s op l r : NamedExpr).isSimple) :
    chainWeight (temporaries n [l, r]) +
        (Expr.binary s op (standIn n l) (standIn (countAfter n l) r) : NamedExpr).weight <
      (Expr.binary s op l r : NamedExpr).weight := by
  have hl := chainWeight_add_lt n [l, r] (by simpa [isSimple, allSimple] using h)
  simp only [standIns, listWeight] at hl
  simp only [weight, isSimple_standIn, and_self, not_true_eq_false, and_false, if_false]
  split <;> omega

theorem defsWeight_zip_le (xs : List Ident) (es : List NamedExpr) :
    defsWeight (xs.zip es) ≤ listWeight es := by
  induction xs generalizing es with
  | nil => simp [defsWeight]
  | cons x xs ih =>
    cases es with
    | nil => simp [defsWeight]
    | cons e es =>
      have := ih es
      simp only [List.zip_cons_cons, defsWeight, defWeight, listWeight]
      omega

theorem listWeight_values (defs : List (Ident × NamedExpr)) :
    listWeight (defValues defs) = defsWeight defs := by
  induction defs with
  | nil => rfl
  | cons d ds ih =>
    obtain ⟨_, e⟩ := d
    simpa [defValues, listWeight, defsWeight, defWeight] using ih

theorem allSimple_values (defs : List (Ident × NamedExpr)) :
    allSimple (defValues defs) = defsSimple defs := by
  induction defs with
  | nil => rfl
  | cons d ds ih =>
    obtain ⟨_, e⟩ := d
    rw [defsSimple, ← ih]
    rfl

/-- Values that stand in leave no work to a definition. -/
theorem chainWeight_add_rebind_lt (n : Nat) (defs : List (Ident × NamedExpr))
    (h : ¬ defsSimple defs) :
    chainWeight (temporaries n (defValues defs)) +
        defsWeight (rebind defs (standIns n (defValues defs))) < defsWeight defs := by
  have hl := chainWeight_add_lt n (defValues defs) (by rw [allSimple_values]; exact h)
  have := defsWeight_zip_le (defs.map Prod.fst) (standIns n (defValues defs))
  rw [listWeight_values] at hl
  rw [rebind]
  omega

theorem weight_conjunction (s : Span) (l r : NamedExpr)
    (h : ¬ (Expr.binary s .and l r : NamedExpr).isSimple) :
    (mkCond l (.binary r.span .and r (.bool .synthetic true)) (.bool .synthetic false)).weight <
      (Expr.binary s .and l r : NamedExpr).weight := by
  have h : ¬ (l.isSimple ∧ r.isSimple) := by simpa [isSimple] using h
  by_cases hr : r.isSimple
  · simp [mkCond, weight, isSimple, hr, show l.isSimple = false by simpa [hr] using h]
    omega
  · have := two_le_weight r hr
    simp [mkCond, weight, isSimple, hr]
    omega

theorem weight_disjunction (s : Span) (l r : NamedExpr)
    (h : ¬ (Expr.binary s .or l r : NamedExpr).isSimple) :
    (mkCond l (.bool .synthetic true) (.binary r.span .or r (.bool .synthetic false))).weight <
      (Expr.binary s .or l r : NamedExpr).weight := by
  have h : ¬ (l.isSimple ∧ r.isSimple) := by simpa [isSimple] using h
  by_cases hr : r.isSimple
  · simp [mkCond, weight, isSimple, hr, show l.isSimple = false by simpa [hr] using h]
    omega
  · have := two_le_weight r hr
    simp [mkCond, weight, isSimple, hr]
    omega

/-! ## Conversion -/

mutual

/-- An expression that passes the value of `e` to the continuation `k`. -/
def convert (k e : NamedExpr) : Conversion NamedExpr :=
  if h : e.isSimple then do return mkApp k [← reshape e]
  else match e, h with
    | .app s f args, h =>
      if hp : f.isPrim then do
        have : ¬ allSimple args := fun ha => h (by simp [isSimple, hp, ha])
        let n ← reserve args
        have := chainWeight_add_lt n args this
        chain k (temporaries n args) (.app s f (standIns n args))
      else if hs : allSimple (f :: args) then do
        let f ← reshape f
        let args ← reshapeAll args
        return .app s f (args ++ [k])
      else do
        let n ← reserve (f :: args)
        have := chainWeight_add_lt n (f :: args) hs
        chain k (temporaries n (f :: args))
          (.app s (standIn n f) (standIns (countAfter n f) args))
    | .unary s op e, h => do
      have := two_le_weight e (by simpa [isSimple] using h)
      let t ← fresh
      chain k [(t, e)] (.unary s op (mkVar t))
    | .binary s .and l r, h =>
      have := weight_conjunction s l r h
      convert k (mkCond l (.binary r.span .and r (.bool .synthetic true))
        (.bool .synthetic false))
    | .binary s .or l r, h =>
      have := weight_disjunction s l r h
      convert k (mkCond l (.bool .synthetic true)
        (.binary r.span .or r (.bool .synthetic false)))
    | .binary s op l r, h => do
      let n ← reserve [l, r]
      have := chainWeight_add_binary_lt n s op l r h
      chain k (temporaries n [l, r]) (.binary s op (standIn n l) (standIn (countAfter n l) r))
    | .cond s t a b, _ =>
      if ht : t.isSimple then do
        let t ← reshape t
        let (k, wrap) ← share k
        let a ← convert k a
        let b ← convert k b
        return wrap (.cond s t a b)
      else do
        have := two_le_weight t ht
        let x ← fresh
        chain k [(x, t)] (.cond s (mkVar x) a b)
    | .letIn s .plain defs _ body, _ =>
      if hd : defsSimple defs then do
        let defs ← reshapeDefs defs
        let (k, wrap) ← share k
        let body ← convert k body
        return wrap (.letIn s .plain defs () body)
      else match defs with
        | [(x, e)] => do
          let (k, wrap) ← share k
          let body ← convert k body
          return wrap (← convert (mkMap [x] body) e)
        | defs => do
          let values := defValues defs
          let n ← reserve values
          have := chainWeight_add_rebind_lt n defs hd
          chain k (temporaries n values) (.letIn s .plain (rebind defs (standIns n values)) () body)
    | .letIn s .recursive defs _ body, _ => do
      match firstNonSimple defs with
      | some x =>
        refuse x
        return e
      | none =>
        let defs ← reshapeDefs defs
        let (k, wrap) ← share k
        let body ← convert k body
        return wrap (.letIn s .recursive defs () body)
    | .block _ es, _ => convertAll k es
    | .int _ _, h | .bool _ _, h | .null _, h | .var _ _, h | .prim _ _, h | .map _ _ _ _, h =>
      (h rfl).elim
termination_by 3 * e.weight + 1
decreasing_by
  all_goals
    (try simp_all only [weight, listWeight, defsWeight, defWeight, chainWeight, mkVar, standIns])
    omega

/-- The conversion of `let t₁ := e₁; in … let tₙ := eₙ; in body` for the temporaries `ts`. -/
def chain (k : NamedExpr) (ts : List (Ident × NamedExpr)) (body : NamedExpr) :
    Conversion NamedExpr :=
  match ts with
  | [] => convert k body
  | (x, e) :: ts =>
    if e.isSimple then do
      let e ← reshape e
      let rest ← chain k ts body
      return mkLet [(x, e)] rest
    else do
      let rest ← chain k ts body
      convert (mkMap [x] rest) e
termination_by 3 * (chainWeight ts + body.weight) + 2
decreasing_by
  all_goals
    simp only [chainWeight]
    omega

/-- The conversion of a block. Every component but the last is evaluated inside a block before
the rest: a definition that nothing uses would not be evaluated by a lazy policy. -/
def convertAll (k : NamedExpr) (es : List NamedExpr) : Conversion NamedExpr :=
  match es with
  | [] => convert k (.null .synthetic)
  | [e] => convert k e
  | e :: es =>
    if e.isSimple then do
      let e ← reshape e
      let rest ← convertAll k es
      return .block .synthetic [e, rest]
    else do
      let t ← fresh
      let rest ← convertAll k es
      convert (mkMap [t] (.block .synthetic [mkVar t, rest])) e
termination_by 3 * listWeight es + 2
decreasing_by
  all_goals
    simp only [weight, listWeight]
    omega

/-- A simple expression with functions that take a continuation. -/
def reshape (e : NamedExpr) : Conversion NamedExpr :=
  match e with
  | .int _ _ | .bool _ _ | .null _ | .var _ _ => return e
  | .prim _ p => reshapePrim p
  | .map s params _ body => do
    let k ← fresh
    let body ← convert (mkVar k) body
    return .map s (params ++ [k]) () body
  | .app s f args => do
    let call := .app s f (← reshapeAll args)
    return if isArity f then .binary s .sub call (.int .synthetic 1) else call
  | .unary s op e => do return .unary s op (← reshape e)
  | .binary s op l r => do
    let l ← reshape l
    let r ← reshape r
    return .binary s op l r
  | .cond s t a b => do
    let t ← reshape t
    let a ← reshape a
    let b ← reshape b
    return .cond s t a b
  | .letIn s kind defs _ body => do
    let defs ← reshapeDefs defs
    let body ← reshape body
    return .letIn s kind defs () body
  | .block s es => do return .block s (← reshapeAll es)
termination_by 3 * e.weight
decreasing_by
  all_goals
    simp only [weight]
    (try split) <;> omega

def reshapeAll (es : List NamedExpr) : Conversion (List NamedExpr) :=
  match es with
  | [] => return []
  | e :: es => do
    let e ← reshape e
    return e :: (← reshapeAll es)
termination_by 3 * listWeight es
decreasing_by
  all_goals
    simp only [listWeight]
    omega

def reshapeDefs (ds : List (Ident × NamedExpr)) : Conversion (List (Ident × NamedExpr)) :=
  match ds with
  | [] => return []
  | (x, e) :: ds => do
    let e ← reshape e
    return (x, e) :: (← reshapeDefs ds)
termination_by 3 * defsWeight ds
decreasing_by
  all_goals
    simp only [defsWeight, defWeight]
    omega

end

end Conversion

/-- The continuation that returns its argument. -/
def identityMap : NamedExpr :=
  Expr.mkMap [.synthetic ":x"] (Expr.mkVar (.synthetic ":x"))

/-- A program in continuation-passing style, unless a recursive definition had to be refused. -/
def Expr.toCps (e : NamedExpr) : Except Report NamedExpr :=
  let (converted, naming) := (Conversion.convert identityMap e).run ⟨0, []⟩
  match naming.faults with
  | [] => .ok converted
  | faults => .error (Report.ofList (faults.map (fun f => f.1.diagnostic f.2)))

end Mapling
