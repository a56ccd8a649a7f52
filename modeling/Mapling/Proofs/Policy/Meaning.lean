import Mapling.Proofs.Outcome

/-! # What an expression means

When nothing is ever assigned, it does not matter when an expression is evaluated. This file says
what an expression evaluates to without saying when: `Means σ B h env e v` says that `e` evaluates
to `v` in `env`, where the value of a slot is found by evaluating the expression that the slot was
bound to. `B` lists these expressions and their environments by slot. The number `h` bounds how
much there is to do.

A slot that is bound at once can be read only after the slots bound before it, so reading it also
takes the values of the expressions before its own (`Bound.before`). What is put off can be read
at any time. So an expression means under lazy policies what it means under eager ones
(`Means.carry`).

Evaluating by need keeps a value, evaluating by name finds it again, which makes new slots. Two
slots are twins if they were bound to the same expression in environments of twins; since
environments may contain the slot itself, being twins is the largest relation with this property.
An expression means the same in environments of twins (`Means.twins`): memory of earlier results
makes no difference. -/

namespace Mapling

variable {V L α : Type} {bs : List Binding} {i j k : Nat} {env env' env'' : Env} {op : BinaryOp}
  {R S : Nat → Nat → Prop} {d eager : Bool}

/-! ## Programs without assignment -/

namespace Expr

mutual

/-- The expression neither makes nor reads a reference and assigns nothing. -/
def isPure : Expr V L → Bool
  | .int _ _ | .bool _ _ | .null _ | .var _ _ | .prim _ _ => true
  | .unary _ op e => op != .ref && op != .deref && e.isPure
  | .binary _ op l r => op != .assign && l.isPure && r.isPure
  | .app _ f args => f.isPure && allPure args
  | .map _ _ _ body => body.isPure
  | .cond _ t a b => t.isPure && a.isPure && b.isPure
  | .letIn _ _ defs _ body => defsPure defs && body.isPure
  | .block _ es => allPure es

def allPure : List (Expr V L) → Bool
  | [] => true
  | e :: es => e.isPure && allPure es

def defsPure : List (Ident × Expr V L) → Bool
  | [] => true
  | d :: ds => defPure d && defsPure ds

def defPure : Ident × Expr V L → Bool
  | (_, e) => e.isPure

end

theorem allPure_defValues (defs : List (Ident × Expr V L)) :
    allPure (defValues defs) = defsPure defs := by
  induction defs with
  | nil => rfl
  | cons d ds ih =>
    obtain ⟨x, e⟩ := d
    rw [defsPure, ← ih]
    rfl

theorem isPure_of_mem {es : List (Expr V L)} (hes : allPure es = true) {e : Expr V L}
    (he : e ∈ es) : e.isPure = true := by
  induction es with
  | nil => cases he
  | cons e' es ih =>
    rw [allPure, Bool.and_eq_true] at hes
    rcases List.mem_cons.mp he with rfl | he
    · exact hes.1
    · exact ih hes.2 he

end Expr

/-- The value is no reference, and if it is a function, its body is pure. -/
def Value.IsPure {V L : Type} : Value V L → Prop
  | .closure _ c => c.body.isPure = true
  | .ref _ => False
  | _ => True

/-! ## Values that hold no place in the store -/

def Scalar.value {V L : Type} : Scalar → Value V L
  | .int n => .int n
  | .bool b => .bool b

def BinaryOp.decisive? : BinaryOp → Option Bool
  | .and => some false
  | .or => some true
  | _ => none

def BinaryOp.comparison? : BinaryOp → Option (Bool → Bool)
  | .eq => some id
  | .ne => some not
  | _ => none

/-- What a primitive finds out about a value without looking at its parts. -/
def Prim.inspect? {V L : Type} : Prim → Value V L → Option Scalar
  | .isNumber, v => some (.bool (match v with | .int _ => true | _ => false))
  | .isFunction, v => some (.bool v.isFunction)
  | .isList, v => some (.bool v.isList)
  | .isNull, v => some (.bool (match v with | .null => true | _ => false))
  | .isCons, v => some (.bool (match v with | .pair _ _ => true | _ => false))
  | .isRef, v => some (.bool (match v with | .ref _ => true | _ => false))
  | .arity, .closure _ c => some (.int c.arity)
  | .arity, .prim q => some (.int q.parameters)
  | _, _ => none

/-! ## Operators on values without parts -/

/-- The value is an integer, a truth value, the empty list or a primitive. -/
def Value.isPlain {V L : Type} : Value V L → Bool
  | .int _ | .bool _ | .null | .prim _ => true
  | _ => false

def Value.isClosure {V L : Type} : Value V L → Bool
  | .closure _ _ => true
  | _ => false

/-- What a unary operator makes of a value, if it has no effect. -/
def UnaryOp.onPlain? {V L : Type} : UnaryOp → Value V L → Option Scalar
  | .neg, .int a => (negate a).toOption.map .int
  | .not, .bool b => some (.bool (!b))
  | _, _ => none

/-- What a binary operator makes of two values, if it has no effect and does not compare them. -/
def BinaryOp.onPlain? {V L : Type} (op : BinaryOp) : Value V L → Value V L → Option Scalar
  | .int a, .int b => (op.onInts a b).toOption
  | _, _ => none

/-! ## Bindings -/

/-- Which expressions are evaluated at once, those that are bound and the parts of pairs, whether
a pair is taken to be equal to itself without looking at its parts, and whether it is left open what
comparing values gives. -/
structure Eagerness where
  binding : Bool
  cons : Bool
  sharing : Bool
  loose : Bool

namespace Eagerness

def isTotal (σ : Eagerness) : Bool := σ.binding && σ.cons

structure Fits (σ : Eagerness) (c : Config) : Prop where
  binding : σ.binding = !c.binding.isLazy
  cons : σ.cons = !c.cons.isLazy

structure AtLeast (σ σ' : Eagerness) : Prop where
  binding : σ'.binding = true → σ.binding = true
  cons : σ'.cons = true → σ.cons = true
  sharing : σ.sharing = true → σ'.sharing = true
  loose : σ.loose = true → σ'.loose = true

/-- Frames are bound in the same way, and it is settled what comparing values gives. -/
structure Alike (σ σ' : Eagerness) : Prop where
  binding : σ'.binding = σ.binding
  strict : σ.loose = false
  strict' : σ'.loose = false

end Eagerness

/-- What a slot was made for: a variable, or a part of a pair. -/
inductive Purpose
  | variable
  | head
  | tail

/-- What a slot was bound to. If it was bound at once in a frame, the expressions of the frame
before it were evaluated first. -/
structure Bound (V L : Type) where
  expr : Expr V L
  env : Env
  before : List (Expr V L)
  purpose : Purpose

/-- What the slots were bound to, in order. -/
abbrev Bindings (V L : Type) := List (Bound V L)

/-- The slots were bound to the expressions of a frame, behind those in `seen`. -/
inductive Bindings.Row (B : Bindings V L) (eager : Bool) (env : Env) :
    List (Expr V L) → List Binding → List (Expr V L) → Prop
  | nil {seen : List (Expr V L)} : Row B eager env seen [] []
  | cons {seen : List (Expr V L)} {b : Binding} {bs : List Binding} {e : Expr V L}
      {es : List (Expr V L)}
      (hb : B[b.slot]? = some ⟨e, env, if eager then seen else [], .variable⟩)
      (hbs : Row B eager env (seen ++ [e]) bs es) : Row B eager env seen (b :: bs) (e :: es)

section

variable {v v' w : Value V L} {e : Expr V L} {seen es : List (Expr V L)} {σ σ' : Eagerness}
  {B B' : Bindings V L} {h h' : Nat} {b : Bool}

theorem Bindings.getElem?_mono (hB : B <+: B') {y : Bound V L} (hy : B[i]? = some y) :
    B'[i]? = some y := by
  obtain ⟨hlt, rfl⟩ := List.getElem?_eq_some_iff.mp hy
  exact List.prefix_iff_getElem?.mp hB i hlt

def Bindings.HasPurpose (B : Bindings V L) (r : Purpose) (i : Nat) : Prop :=
  ∃ y, B[i]? = some y ∧ y.purpose = r

theorem Bindings.HasPurpose.mono {r : Purpose} (hB : B <+: B') (hi : B.HasPurpose r i) :
    B'.HasPurpose r i := by
  obtain ⟨y, hy, hr⟩ := hi
  exact ⟨y, Bindings.getElem?_mono hB hy, hr⟩

/-- What was bound in `B` was bound in `B'` as well, if not as eagerly. -/
structure Bindings.Covers (σ σ' : Eagerness) (B B' : Bindings V L) : Prop where
  atLeast : σ.AtLeast σ'
  bound : ∀ {i : Nat} {y : Bound V L}, B[i]? = some y →
    B'[i]? = some { y with before := if σ'.binding = σ.binding then y.before else [] }

theorem Bindings.Covers.row (hB : Covers σ σ' B B')
    (hrow : B.Row σ.binding env seen bs es) : B'.Row σ'.binding env seen bs es := by
  induction hrow with
  | nil => exact .nil
  | cons hb hbs ih =>
    refine .cons ?_ ih
    have hbinding := hB.atLeast.binding
    rw [hB.bound hb]
    cases hσ : σ.binding <;> cases hσ' : σ'.binding <;> simp_all

theorem Bindings.Covers.of_grows (σ : Eagerness) (hB : B <+: B') :
    Covers σ σ B B' :=
  ⟨⟨id, id, id, id⟩, fun hy => by simpa using Bindings.getElem?_mono hB hy⟩

def Bindings.relaxed (σ σ' : Eagerness) (B : Bindings V L) : Bindings V L :=
  B.map (fun y => { y with before := if σ'.binding = σ.binding then y.before else [] })

theorem Bindings.covers_relaxed (hσ : σ.AtLeast σ') : Covers σ σ' B (B.relaxed σ σ') := by
  refine ⟨hσ, fun hy => ?_⟩
  rw [relaxed, List.getElem?_map, hy]
  rfl

/-! ## Meanings -/

variable [Variable V]

mutual

/-- The expression evaluates to the value in the environment, with at most `h` to do. -/
inductive Means (σ : Eagerness) (B : Bindings V L) :
    Nat → Env → Expr V L → Value V L → Prop
  | int {h : Nat} {env : Env} {sp : Span} (n : Int) : Means σ B h env (.int sp n) (.int n)
  | bool {h : Nat} {env : Env} {sp : Span} (b : Bool) : Means σ B h env (.bool sp b) (.bool b)
  | null {h : Nat} {env : Env} {sp : Span} : Means σ B h env (.null sp) .null
  | prim {h : Nat} {env : Env} {sp : Span} (p : Prim) : Means σ B h env (.prim sp p) (.prim p)
  | map {h : Nat} {env : Env} {sp : Span} {params : List Ident} {layout : L}
      {body : Expr V L} (id : Nat) :
      Means σ B h env (.map sp params layout body) (.closure id ⟨params, layout, body, env⟩)
  | var {h : Nat} {env : Env} {sp : Span} {x : V} {b : Binding} {v : Value V L}
      (hx : Variable.lookup env x = some b) (hv : Reads σ B h b.slot v) :
      Means σ B h env (.var sp x) v
  | unary {k h : Nat} {env : Env} {sp : Span} {op : UnaryOp} {e : Expr V L}
      {v : Value V L} {z : Scalar} (hk : k < h) (he : Means σ B k env e v)
      (hop : op.onPlain? v = some z) : Means σ B h env (.unary sp op e) z.value
  | binary {k h : Nat} {env : Env} {sp : Span} {op : BinaryOp} {l r : Expr V L}
      {v w : Value V L} {z : Scalar} (hk : k < h) (hl : Means σ B k env l v)
      (hr : Means σ B k env r w) (hop : op.onPlain? v w = some z) :
      Means σ B h env (.binary sp op l r) z.value
  | compare {k h : Nat} {env : Env} {sp : Span} {op : BinaryOp} {l r : Expr V L}
      {v w : Value V L} {f : Bool → Bool} {b : Bool} (hk : k < h)
      (hop : op.comparison? = some f) (hl : Means σ B k env l v) (hr : Means σ B k env r w)
      (hc : Compares σ B k v w b) : Means σ B h env (.binary sp op l r) (.bool (f b))
  | logical {k h : Nat} {env : Env} {sp : Span} {op : BinaryOp} {l r : Expr V L}
      {d b c : Bool} (hk : k < h) (hop : op.decisive? = some d)
      (hl : Means σ B k env l (.bool b)) (hr : b ≠ d → Means σ B k env r (.bool c)) :
      Means σ B h env (.binary sp op l r) (.bool (if b = d then d else c))
  | call {k h : Nat} {env : Env} {sp : Span} {f : Expr V L} {args : List (Expr V L)}
      {id : Nat} {c : Closure V L} {frame : Frame} {v : Value V L}
      (hk : k < h) (hf : Means σ B k env f (.closure id c)) (hlen : args.length = c.arity)
      (hframe : B.Row σ.binding env [] frame args) (w : Expr V L → Value V L)
      (hargs : σ.binding = true → ∀ e ∈ args, Means σ B k env e (w e))
      (hbody : Means σ B k (frame :: c.env) c.body v) : Means σ B h env (.app sp f args) v
  | cons {k h : Nat} {env : Env} {sp : Span} {f e1 e2 : Expr V L} {i j : Nat}
      {v w : Value V L} (hk : k < h) (hf : Means σ B k env f (.prim .cons))
      (hi : B[i]? = some ⟨e1, env, [], .head⟩) (hj : B[j]? = some ⟨e2, env, [], .tail⟩)
      (h1 : σ.cons = true → Means σ B k env e1 v) (h2 : σ.cons = true → Means σ B k env e2 w)
      (hlist : σ.cons = true → w.isList = true) :
      Means σ B h env (.app sp f [e1, e2]) (.pair i j)
  | inspect {k h : Nat} {env : Env} {sp : Span} {f e : Expr V L} {p : Prim}
      {v : Value V L} {z : Scalar} (hk : k < h) (hf : Means σ B k env f (.prim p))
      (he : Means σ B k env e v) (hp : p.inspect? v = some z) :
      Means σ B h env (.app sp f [e]) z.value
  | first {k h : Nat} {env : Env} {sp : Span} {f e : Expr V L} {i j : Nat}
      {v : Value V L} (hk : k < h) (hf : Means σ B k env f (.prim .first))
      (he : Means σ B k env e (.pair i j)) (hv : Reads σ B k i v) :
      Means σ B h env (.app sp f [e]) v
  | rest {k h : Nat} {env : Env} {sp : Span} {f e : Expr V L} {i j : Nat}
      {v : Value V L} (hk : k < h) (hf : Means σ B k env f (.prim .rest))
      (he : Means σ B k env e (.pair i j)) (hv : Reads σ B k j v) (hlist : v.isList = true) :
      Means σ B h env (.app sp f [e]) v
  | cond {k h : Nat} {env : Env} {sp : Span} {t a b : Expr V L} {test : Bool}
      {v : Value V L} (hk : k < h) (ht : Means σ B k env t (.bool test))
      (he : Means σ B k env (if test then a else b) v) : Means σ B h env (.cond sp t a b) v
  | letIn {k h : Nat} {env : Env} {sp : Span} {kind : LetKind}
      {defs : List (Ident × Expr V L)} {layout : L} {body : Expr V L}
      {frame : Frame} {v : Value V L} (hk : k < h)
      (hframe : B.Row σ.binding (kind.scope frame env) [] frame (Expr.defValues defs))
      (w : Expr V L → Value V L)
      (hdefs : σ.binding = true →
        ∀ e ∈ Expr.defValues defs, Means σ B k (kind.scope frame env) e (w e))
      (hbody : Means σ B k (frame :: env) body v) :
      Means σ B h env (.letIn sp kind defs layout body) v
  | blockNil {h : Nat} {env : Env} {sp : Span} : Means σ B h env (.block sp []) .unit
  | blockLast {k h : Nat} {env : Env} {sp : Span} {e : Expr V L} {v : Value V L}
      (hk : k < h) (he : Means σ B k env e v) : Means σ B h env (.block sp [e]) v
  | blockCons {k h : Nat} {env : Env} {sp : Span} {e e' : Expr V L}
      {es : List (Expr V L)} {v w : Value V L} (hk : k < h)
      (he : Means σ B k env e v) (hes : Means σ B k env (.block sp (e' :: es)) w) :
      Means σ B h env (.block sp (e :: e' :: es)) w

/-- The slot has the value, with at most `h` to do. -/
inductive Reads (σ : Eagerness) (B : Bindings V L) : Nat → Nat → Value V L → Prop
  | intro {k h i : Nat} {y : Bound V L} {v : Value V L} (hk : k < h)
      (hy : B[i]? = some y) (w : Expr V L → Value V L)
      (hbefore : ∀ e ∈ y.before, Means σ B k y.env e (w e))
      (hv : Means σ B k y.env y.expr v) : Reads σ B h i v

/-- Comparing the values, which must not come to a closure, gives `b`, with at most `h` to do.
Unless it is settled what it gives, it may give anything. -/
inductive Compares (σ : Eagerness) (B : Bindings V L) :
    Nat → Value V L → Value V L → Bool → Prop
  | same {h i j : Nat} (hσ : σ.sharing = true) : Compares σ B h (.pair i j) (.pair i j) true
  | loose {h : Nat} {v w : Value V L} {b : Bool} (hσ : σ.loose = true) :
      Compares σ B h v w b
  | atoms {h : Nat} {v w : Value V L}
      (hpairs : ¬∃ i j i' j', v = .pair i j ∧ w = .pair i' j') (hv : v.isClosure = false)
      (hw : w.isClosure = false) : Compares σ B h v w (Eval.sameAtom v w)
  | heads {k h i j i' j' : Nat} {x x' : Value V L} (hk : k < h) (hi : Reads σ B k i x)
      (hi' : Reads σ B k i' x') (hx : Compares σ B k x x' false) :
      Compares σ B h (.pair i j) (.pair i' j') false
  | tails {k h i j i' j' : Nat} {x x' y y' : Value V L} {b : Bool} (hk : k < h)
      (hi : Reads σ B k i x) (hi' : Reads σ B k i' x') (hx : Compares σ B k x x' true)
      (hj : Reads σ B k j y) (hj' : Reads σ B k j' y') (hlist : y.isList = true)
      (hlist' : y'.isList = true) (hy : Compares σ B k y y' b) :
      Compares σ B h (.pair i j) (.pair i' j') b

end

/-- What is read holds with more to do and with other bindings, if what is evaluated for it does. -/
theorem Reads.carry_of (hB : Bindings.Covers σ σ' B B') (hh : h ≤ h')
    (hcarry : ∀ k < h, ∀ env e v, Means σ B k env e v → Means σ' B' k env e v)
    (hr : Reads σ B h i v) : Reads σ' B' h' i v := by
  obtain ⟨hk, hy, w, hbefore, hv⟩ := hr
  refine .intro (by omega) (hB.bound hy) w (fun e he => hcarry _ hk _ _ _ (hbefore e ?_))
    (hcarry _ hk _ _ _ hv)
  dsimp only at he
  split at he
  · exact he
  · cases he

theorem Compares.carry_of (hB : Bindings.Covers σ σ' B B') (hh : h ≤ h')
    (hcarry : ∀ k < h, ∀ env e v, Means σ B k env e v → Means σ' B' k env e v)
    (hc : Compares σ B h v w b) : Compares σ' B' h' v w b := by
  induction h using Nat.strong_induction_on generalizing h' v w b with
  | _ h ih =>
    have hless : ∀ {k v w b}, k < h → Compares σ B k v w b → Compares σ' B' k v w b :=
      fun hk hc => ih _ hk le_rfl (fun k' hk' => hcarry k' (hk'.trans hk)) hc
    have hreads : ∀ {k i v}, k < h → Reads σ B k i v → Reads σ' B' k i v :=
      fun hk hr => hr.carry_of hB le_rfl (fun k' hk' => hcarry k' (hk'.trans hk))
    cases hc with
    | same hσ => exact .same (hB.atLeast.sharing hσ)
    | loose hσ => exact .loose (hB.atLeast.loose hσ)
    | atoms hpairs hv hw => exact .atoms hpairs hv hw
    | heads hk hi hi' hx =>
      exact .heads (hk.trans_le hh) (hreads hk hi) (hreads hk hi') (hless hk hx)
    | tails hk hi hi' hx hj hj' hlist hlist' hy =>
      exact .tails (hk.trans_le hh) (hreads hk hi) (hreads hk hi') (hless hk hx) (hreads hk hj)
        (hreads hk hj') hlist hlist' (hless hk hy)

/-- What an expression means it means with more to do and with bindings that cover the others. -/
theorem Means.carry (hB : Bindings.Covers σ σ' B B') (hh : h ≤ h') (hm : Means σ B h env e v) :
    Means σ' B' h' env e v := by
  induction h using Nat.strong_induction_on generalizing h' env e v with
  | _ h ih =>
    have hsame : ∀ k < h, ∀ env e v, Means σ B k env e v → Means σ' B' k env e v :=
      fun k hk env e v hm => ih k hk le_rfl hm
    cases hm with
    | int n => exact .int n
    | bool b => exact .bool b
    | null => exact .null
    | prim p => exact .prim p
    | map id => exact .map id
    | var hx hv => exact .var hx (hv.carry_of hB hh hsame)
    | unary hk he hop => exact .unary (by omega) (hsame _ hk _ _ _ he) hop
    | binary hk hl hr hop =>
      exact .binary (by omega) (hsame _ hk _ _ _ hl) (hsame _ hk _ _ _ hr) hop
    | compare hk hop hl hr hc =>
      exact .compare (by omega) hop (hsame _ hk _ _ _ hl) (hsame _ hk _ _ _ hr)
        (hc.carry_of hB le_rfl (fun k' hk' => hsame k' (hk'.trans hk)))
    | logical hk hop hl hr =>
      exact .logical (by omega) hop (hsame _ hk _ _ _ hl) (fun hb => hsame _ hk _ _ _ (hr hb))
    | call hk hf hlen hframe w hargs hbody =>
      exact .call (by omega) (hsame _ hk _ _ _ hf) hlen (hB.row hframe) w
        (fun hσ e he => hsame _ hk _ _ _ (hargs (hB.atLeast.binding hσ) e he))
        (hsame _ hk _ _ _ hbody)
    | cons hk hf hi hj h1 h2 hlist =>
      exact .cons (by omega) (hsame _ hk _ _ _ hf) (by simpa using hB.bound hi)
        (by simpa using hB.bound hj) (fun hσ => hsame _ hk _ _ _ (h1 (hB.atLeast.cons hσ)))
        (fun hσ => hsame _ hk _ _ _ (h2 (hB.atLeast.cons hσ)))
        (fun hσ => hlist (hB.atLeast.cons hσ))
    | inspect hk hf he hp =>
      exact .inspect (by omega) (hsame _ hk _ _ _ hf) (hsame _ hk _ _ _ he) hp
    | first hk hf he hv =>
      exact .first (by omega) (hsame _ hk _ _ _ hf) (hsame _ hk _ _ _ he)
        (hv.carry_of hB le_rfl (fun k' hk' => hsame k' (by omega)))
    | rest hk hf he hv hlist =>
      exact .rest (by omega) (hsame _ hk _ _ _ hf) (hsame _ hk _ _ _ he)
        (hv.carry_of hB le_rfl (fun k' hk' => hsame k' (by omega))) hlist
    | cond hk ht he => exact .cond (by omega) (hsame _ hk _ _ _ ht) (hsame _ hk _ _ _ he)
    | letIn hk hframe w hdefs hbody =>
      exact .letIn (by omega) (hB.row hframe) w
        (fun hσ e he => hsame _ hk _ _ _ (hdefs (hB.atLeast.binding hσ) e he))
        (hsame _ hk _ _ _ hbody)
    | blockNil => exact .blockNil
    | blockLast hk he => exact .blockLast (by omega) (hsame _ hk _ _ _ he)
    | blockCons hk he hes =>
      exact .blockCons (by omega) (hsame _ hk _ _ _ he) (hsame _ hk _ _ _ hes)

theorem Reads.carry (hB : Bindings.Covers σ σ' B B') (hh : h ≤ h') (hr : Reads σ B h i v) :
    Reads σ' B' h' i v :=
  hr.carry_of hB hh (fun _ _ _ _ _ hm => hm.carry hB le_rfl)

theorem Means.mono (hB : B <+: B') (hh : h ≤ h') (hm : Means σ B h env e v) :
    Means σ B' h' env e v :=
  hm.carry (.of_grows σ hB) hh

theorem Reads.mono (hB : B <+: B') (hh : h ≤ h') (hr : Reads σ B h i v) : Reads σ B' h' i v :=
  hr.carry (.of_grows σ hB) hh

theorem Compares.mono (hB : B <+: B') (hh : h ≤ h') (hc : Compares σ B h v w b) :
    Compares σ B' h' v w b :=
  hc.carry_of (.of_grows σ hB) hh (fun _ _ _ _ _ hm => hm.mono hB le_rfl)

/-! ## Parts of pairs -/

/-- A pair consists of what was made for it. -/
theorem Means.parts (hm : Means σ B h env e (.pair i j)) :
    B.HasPurpose .head i ∧ B.HasPurpose .tail j := by
  induction h using Nat.strong_induction_on generalizing env e with
  | _ h ih =>
    -- whatever yields the pair has found it before, except the primitive that makes it
    have hread : ∀ {k i'}, k ≤ h → Reads σ B k i' (.pair i j) →
        B.HasPurpose .head i ∧ B.HasPurpose .tail j := by
      rintro k i' hk ⟨hk', -, -, -, hv⟩
      exact ih _ (hk'.trans_le hk) hv
    generalize hv : Value.pair i j = v at hm
    cases hm with
    | var hx hr => exact hread le_rfl (hv ▸ hr)
    | call hk hf hlen hframe w hargs hbody => exact ih _ hk (hv ▸ hbody)
    | cons hk hf hi hj =>
      cases hv
      exact ⟨⟨_, hi, rfl⟩, ⟨_, hj, rfl⟩⟩
    | first hk hf he hr => exact hread hk.le (hv ▸ hr)
    | rest hk hf he hr hlist => exact hread hk.le (hv ▸ hr)
    | cond hk ht he => exact ih _ hk (hv ▸ he)
    | letIn hk hframe w hdefs hbody => exact ih _ hk (hv ▸ hbody)
    | blockLast hk he => exact ih _ hk (hv ▸ he)
    | blockCons hk he hes => exact ih _ hk (hv ▸ hes)
    | unary _ _ _ => rename_i z _ _ _; cases z <;> cases hv
    | binary | inspect => rename_i z _ _ _ _; cases z <;> cases hv
    | _ => cases hv

end

/-! ## Twins -/

section

variable {seen es : List (Expr V L)} {B B' C C' : Bindings V L}

abbrev FramePairs (R : Nat → Nat → Prop) : Frame → Frame → Prop :=
  List.Forall₂ (fun b b' => R b.slot b'.slot)

abbrev EnvPairs (R : Nat → Nat → Prop) : Env → Env → Prop := List.Forall₂ (FramePairs R)

/-- The slots were bound to the same expression in the same way, in environments of related
slots. -/
structure Bound.Pairs (R : Nat → Nat → Prop) (y z : Bound V L) : Prop where
  expr : z.expr = y.expr
  before : z.before = y.before
  env : EnvPairs R y.env z.env

/-- Related slots were bound alike, in environments of related slots. -/
def Bindings.Matching (B C : Bindings V L) (R : Nat → Nat → Prop) : Prop :=
  ∀ i j, R i j → ∃ y z, B[i]? = some y ∧ C[j]? = some z ∧ y.Pairs R z

/-- The slots cannot be told apart by what they were bound to. -/
def Twins (B C : Bindings V L) (i j : Nat) : Prop := ∃ R, B.Matching C R ∧ R i j

abbrev EnvTwins (B C : Bindings V L) : Env → Env → Prop := EnvPairs (Twins B C)

inductive ValueTwins (B C : Bindings V L) : Value V L → Value V L → Prop
  | int (n : Int) : ValueTwins B C (.int n) (.int n)
  | bool (b : Bool) : ValueTwins B C (.bool b) (.bool b)
  | null : ValueTwins B C .null .null
  | unit : ValueTwins B C .unit .unit
  | prim (p : Prim) : ValueTwins B C (.prim p) (.prim p)
  | closure {id id' : Nat} {params : List Ident} {layout : L} {body : Expr V L}
      {env env' : Env} (henv : EnvTwins B C env env') :
      ValueTwins B C (.closure id ⟨params, layout, body, env⟩)
        (.closure id' ⟨params, layout, body, env'⟩)
  | pair {i j i' j' : Nat} (hi : Twins B C i i') (hj : Twins B C j j') :
      ValueTwins B C (.pair i j) (.pair i' j')

theorem EnvPairs.imp (hRS : ∀ i j, R i j → S i j) (henv : EnvPairs R env env') :
    EnvPairs S env env' :=
  List.Forall₂.imp (fun _ _ => List.Forall₂.imp (fun _ _ => hRS _ _)) henv

theorem Bound.Pairs.imp {y z : Bound V L} (hRS : ∀ i j, R i j → S i j) (hyz : y.Pairs R z) :
    y.Pairs S z :=
  ⟨hyz.expr, hyz.before, hyz.env.imp hRS⟩

theorem forall₂_comp {R S : α → α → Prop} {xs ys zs : List α} (hxy : List.Forall₂ R xs ys)
    (hyz : List.Forall₂ S ys zs) : List.Forall₂ (fun x z => ∃ y, R x y ∧ S y z) xs zs := by
  induction hxy generalizing zs with
  | nil =>
    cases hyz
    exact .nil
  | cons hR _ ih =>
    cases hyz with
    | cons hS hrest => exact .cons ⟨_, hR, hS⟩ (ih hrest)

theorem forall₂_getElem? {R : α → α → Prop} {xs ys : List α} (hxy : List.Forall₂ R xs ys) {x : α}
    (hk : xs[k]? = some x) : ∃ y, ys[k]? = some y ∧ R x y := by
  induction hxy generalizing k with
  | nil => cases hk
  | cons hR _ ih =>
    cases k with
    | zero =>
      cases hk
      exact ⟨_, rfl, hR⟩
    | succ k => exact ih hk

theorem EnvPairs.comp (henv : EnvPairs R env env') (henv' : EnvPairs S env' env'') :
    EnvPairs (fun i k => ∃ j, R i j ∧ S j k) env env'' := by
  refine List.Forall₂.imp ?_ (forall₂_comp henv henv')
  rintro f f'' ⟨f', hf, hf'⟩
  refine List.Forall₂.imp ?_ (forall₂_comp hf hf')
  rintro b b'' ⟨b', hb, hb'⟩
  exact ⟨b'.slot, hb, hb'⟩

theorem Bindings.Matching.mono (hB : B <+: B') (hC : C <+: C') (hR : B.Matching C R) :
    B'.Matching C' R := by
  intro i j hij
  obtain ⟨y, z, hy, hz, hrest⟩ := hR i j hij
  exact ⟨y, z, Bindings.getElem?_mono hB hy, Bindings.getElem?_mono hC hz, hrest⟩

namespace Twins

variable {j : Nat}

theorem mono (hC : C <+: C') (hij : Twins B C i j) : Twins B C' i j := by
  obtain ⟨R, hR, hij⟩ := hij
  exact ⟨R, hR.mono (List.prefix_refl B) hC, hij⟩

/-- Being twins is itself such a relation. -/
theorem matching (B C : Bindings V L) : B.Matching C (Twins B C) := by
  rintro i j ⟨R, hR, hij⟩
  obtain ⟨y, z, hy, hz, hyz⟩ := hR i j hij
  exact ⟨y, z, hy, hz, hyz.imp (fun i j hij => ⟨R, hR, hij⟩)⟩

/-- To show that slots are twins, relations between other slots may be assumed as well. -/
theorem of_matching
    (hR : ∀ i j, R i j → ∃ y z, B[i]? = some y ∧ C[j]? = some z ∧
      y.Pairs (fun i j => R i j ∨ Twins B C i j) z) (hij : R i j) : Twins B C i j := by
  refine ⟨fun i j => R i j ∨ Twins B C i j, ?_, .inl hij⟩
  rintro i j (hij | hij)
  · exact hR i j hij
  · obtain ⟨y, z, hy, hz, hyz⟩ := matching B C i j hij
    exact ⟨y, z, hy, hz, hyz.imp (fun _ _ => .inr)⟩

theorem intro {y z : Bound V L} (hy : B[i]? = some y) (hz : C[j]? = some z)
    (hyz : y.Pairs (Twins B C) z) : Twins B C i j := by
  refine of_matching (R := fun i' j' => i' = i ∧ j' = j) ?_ ⟨rfl, rfl⟩
  rintro i' j' ⟨rfl, rfl⟩
  exact ⟨y, z, hy, hz, hyz.imp (fun _ _ => .inr)⟩

theorem symm (hij : Twins B C i j) : Twins C B j i := by
  obtain ⟨R, hR, hij⟩ := hij
  refine ⟨fun j i => R i j, fun j i hji => ?_, hij⟩
  obtain ⟨y, z, hy, hz, hyz⟩ := hR i j hji
  exact ⟨z, y, hz, hy, hyz.expr.symm, hyz.before.symm,
    List.Forall₂.flip (List.Forall₂.imp (fun _ _ => List.Forall₂.flip) hyz.env)⟩

theorem trans {D : Bindings V L} (hij : Twins B C i j) (hjk : Twins C D j k) : Twins B D i k := by
  obtain ⟨R, hR, hij⟩ := hij
  obtain ⟨S, hS, hjk⟩ := hjk
  refine ⟨fun i k => ∃ j, R i j ∧ S j k, ?_, j, hij, hjk⟩
  rintro i k ⟨j, hij, hjk⟩
  obtain ⟨y, z, hy, hz, hyz⟩ := hR i j hij
  obtain ⟨z', x, hz', hx, hzx⟩ := hS j k hjk
  cases hz.symm.trans hz'
  exact ⟨y, x, hy, hx, hzx.expr.trans hyz.expr, hzx.before.trans hyz.before,
    EnvPairs.comp hyz.env hzx.env⟩

end Twins

namespace EnvTwins

variable {env env' : Env}

theorem mono (hC : C <+: C') (henv : EnvTwins B C env env') : EnvTwins B C' env env' :=
  EnvPairs.imp (fun _ _ => Twins.mono hC) henv

theorem symm (henv : EnvTwins B C env env') : EnvTwins C B env' env :=
  List.Forall₂.flip (List.Forall₂.imp
    (fun _ _ hf => List.Forall₂.flip (List.Forall₂.imp (fun _ _ => Twins.symm) hf)) henv)

theorem trans {D : Bindings V L} (henv : EnvTwins B C env env') (henv' : EnvTwins C D env' env'') :
    EnvTwins B D env env'' := by
  refine EnvPairs.imp ?_ (EnvPairs.comp henv henv')
  rintro i k ⟨j, hij, hjk⟩
  exact hij.trans hjk

/-- The binding at an address of an environment of twins. -/
theorem at? (henv : EnvTwins B C env env') {x : Address} {b : Binding}
    (hb : env.at? x = some b) : ∃ b', env'.at? x = some b' ∧ Twins B C b.slot b'.slot := by
  rw [Env.at?] at hb
  split at hb
  · rename_i f hf
    obtain ⟨f', hf', hff'⟩ := forall₂_getElem? henv hf
    obtain ⟨b', hb', hbb'⟩ := forall₂_getElem? hff' hb
    refine ⟨b', ?_, hbb'⟩
    rw [Env.at?, hf']
    exact hb'
  · cases hb

end EnvTwins

/-- The slots of two frames that were bound to the same expressions, place by place. -/
theorem Bindings.Row.pairs {bs' : List Binding} (hrow : B.Row eager env seen bs es)
    (hrow' : C.Row eager env' seen bs' es) :
    FramePairs (fun i j => ∃ e before, B[i]? = some ⟨e, env, before, .variable⟩ ∧
      C[j]? = some ⟨e, env', before, .variable⟩) bs bs' := by
  induction hrow generalizing bs' with
  | nil =>
    cases hrow'
    exact .nil
  | cons hb hbs ih =>
    cases hrow' with
    | cons hb' hbs' => exact .cons ⟨_, _, hb, hb'⟩ (ih hbs')

/-- Frames that were bound to the same expressions in environments of twins are twins, also if the
expressions see the frames themselves. -/
theorem Bindings.Row.twins (kind : LetKind) {frame frame' : Frame}
    (hrow : B.Row eager (kind.scope frame env) [] frame es)
    (hrow' : C.Row eager (kind.scope frame' env') [] frame' es) (henv : EnvTwins B C env env') :
    FramePairs (Twins B C) frame frame' := by
  have hpairs := hrow.pairs hrow'
  refine List.Forall₂.imp (fun b b' hb => ?_) hpairs
  refine Twins.of_matching (R := fun i j => ∃ e before,
    B[i]? = some ⟨e, kind.scope frame env, before, .variable⟩ ∧
      C[j]? = some ⟨e, kind.scope frame' env', before, .variable⟩) ?_ hb
  rintro i j ⟨e, before, hi, hj⟩
  refine ⟨_, _, hi, hj, rfl, rfl, ?_⟩
  cases kind with
  | plain => exact EnvPairs.imp (fun _ _ => .inr) henv
  | recursive =>
    exact .cons (List.Forall₂.imp (fun _ _ => .inl) hpairs) (EnvPairs.imp (fun _ _ => .inr) henv)

namespace ValueTwins

variable {v v' w w' : Value V L}

theorem mono (hC : C <+: C') (hv : ValueTwins B C v v') : ValueTwins B C' v v' := by
  cases hv with
  | int n => exact .int n
  | bool b => exact .bool b
  | null => exact .null
  | unit => exact .unit
  | prim p => exact .prim p
  | closure henv => exact .closure (henv.mono hC)
  | pair hi hj => exact .pair (hi.mono hC) (hj.mono hC)

theorem scalar (z : Scalar) : ValueTwins B C z.value z.value := by
  cases z with
  | int n => exact .int n
  | bool b => exact .bool b

section

variable (hv : ValueTwins B C v v')
include hv

theorem isList_eq : v'.isList = v.isList := by
  cases hv <;> rfl

theorem plainText_eq : v'.plainText = v.plainText := by
  cases hv <;> rfl

theorem inspect?_eq (p : Prim) : p.inspect? v' = p.inspect? v := by
  cases hv <;> cases p <;> rfl

theorem unaryOnPlain?_eq (op : UnaryOp) : op.onPlain? v' = op.onPlain? v := by
  cases hv <;> cases op <;> rfl

theorem onPlain?_eq (hw : ValueTwins B C w w') (op : BinaryOp) :
    op.onPlain? v' w' = op.onPlain? v w := by
  cases hv <;> cases hw <;> rfl

theorem isClosure_eq : v'.isClosure = v.isClosure := by
  cases hv <;> rfl

theorem symm : ValueTwins C B v' v := by
  cases hv with
  | closure henv => exact .closure henv.symm
  | pair hi hj => exact .pair hi.symm hj.symm
  | _ => constructor

theorem trans {D : Bindings V L} {v'' : Value V L} (hv' : ValueTwins C D v' v'') :
    ValueTwins B D v v'' := by
  cases hv with
  | closure henv =>
    cases hv' with
    | closure henv' => exact .closure (henv.trans henv')
  | pair hi hj =>
    cases hv' with
    | pair hi' hj' => exact .pair (hi.trans hi') (hj.trans hj')
  | _ =>
    cases hv'
    constructor

/-- Values that are neither closures nor both pairs are as equal as their twins. -/
theorem sameAtom_eq (hw : ValueTwins B C w w') (hvc : v.isClosure = false)
    (hpairs : ¬∃ i j i' j', v = .pair i j ∧ w = .pair i' j') :
    Eval.sameAtom v' w' = Eval.sameAtom v w := by
  cases hv with
  | closure => cases hvc
  | pair =>
    cases hw with
    | pair => exact absurd ⟨_, _, _, _, rfl, rfl⟩ hpairs
    | _ => rfl
  | _ => cases hw <;> rfl

end

theorem sameAtom_self (hv : ValueTwins B C v w) (hvc : v.isClosure = false)
    (hpairs : ¬∃ i j i' j', v = .pair i j ∧ w = .pair i' j') : Eval.sameAtom v w = true := by
  cases hv with
  | closure => cases hvc
  | pair => exact absurd ⟨_, _, _, _, rfl, rfl⟩ hpairs
  | _ => simp [Eval.sameAtom]

end ValueTwins

end

/-! ## Meanings agree -/

variable {σ σ' : Eagerness} {B C : Bindings Address Layout} {h h' : Nat} {e : AddressedExpr}
  {v v' w w' : Value Address Layout} {b b' : Bool}

theorem Prim.inspect?_first (v : Value V L) : Prim.first.inspect? v = none := by
  cases v <;> rfl

theorem Prim.inspect?_rest (v : Value V L) : Prim.rest.inspect? v = none := by
  cases v <;> rfl

theorem BinaryOp.onPlain?_of_decisive? (hop : op.decisive? = some d) (v w : Value V L) :
    op.onPlain? v w = none := by
  cases op <;> cases hop <;> cases v <;> cases w <;> rfl

theorem BinaryOp.onPlain?_of_comparison? {f : Bool → Bool} (hop : op.comparison? = some f)
    (v w : Value V L) : op.onPlain? v w = none := by
  cases op <;> cases hop <;> cases v <;> cases w <;> rfl

theorem BinaryOp.comparison?_of_decisive? (hop : op.decisive? = some d) :
    op.comparison? = none := by
  cases op <;> cases hop <;> rfl

/-- With less than `N` to do, an expression means the same in environments of twins. -/
def TwinsBelow (N : Nat) : Prop :=
  ∀ {σ σ' : Eagerness} {B C : Bindings Address Layout} {k k' : Nat} {env env' : Env}
    {e : AddressedExpr} {v v' : Value Address Layout}, σ.Alike σ' → k < N → k' < N →
    Means σ B k env e v → Means σ' C k' env' e v' → EnvTwins B C env env' → ValueTwins B C v v'

namespace TwinsBelow

variable {N : Nat} {j : Nat}

/-- Twins have the same value. -/
theorem reads (ih : TwinsBelow N) (hσ : σ.Alike σ') (hh : h ≤ N) (hh' : h' ≤ N)
    (hr : Reads σ B h i v) (hr' : Reads σ' C h' j v') (hij : Twins B C i j) :
    ValueTwins B C v v' := by
  obtain ⟨hk, hy, -, -, hv⟩ := hr
  obtain ⟨hk', hz, -, -, hv'⟩ := hr'
  obtain ⟨y, z, hy', hz', hyz⟩ := Twins.matching B C i j hij
  cases hy.symm.trans hy'
  cases hz.symm.trans hz'
  rw [hyz.expr] at hv'
  exact ih hσ (hk.trans_le hh) (hk'.trans_le hh') hv hv' hyz.env

/-- Twins are equal. -/
theorem compares_self (ih : TwinsBelow N) (hσ : σ.loose = false) (hh : h ≤ N)
    (hc : Compares σ B h v w b) (hvw : ValueTwins B B v w) : b = true := by
  induction h using Nat.strong_induction_on generalizing v w b with
  | _ h ihh =>
    cases hc with
    | same => rfl
    | loose h => cases hσ.symm.trans h
    | atoms hpairs hv hw => exact hvw.sameAtom_self hv hpairs
    | heads hk hi hi' hx =>
      cases hvw with
      | pair hij _ =>
        exact ihh _ hk (hk.le.trans hh) hx
          (ih.reads ⟨rfl, hσ, hσ⟩ (hk.le.trans hh) (hk.le.trans hh) hi hi' hij)
    | tails hk hi hi' hx hj hj' hlist hlist' hy =>
      cases hvw with
      | pair _ hij =>
        exact ihh _ hk (hk.le.trans hh) hy
          (ih.reads ⟨rfl, hσ, hσ⟩ (hk.le.trans hh) (hk.le.trans hh) hj hj' hij)

/-- Comparing twins gives the same. -/
theorem compares (ih : TwinsBelow N) (hσ : σ.Alike σ') (hh : h ≤ N) (hh' : h' ≤ N)
    (hc : Compares σ B h v w b) (hc' : Compares σ' C h' v' w' b') (hv : ValueTwins B C v v')
    (hw : ValueTwins B C w w') : b' = b := by
  induction h using Nat.strong_induction_on generalizing h' v w v' w' b b' with
  | _ h ihh =>
    -- a pair that is taken to be equal to itself is compared with a twin on the other side
    have hself : v = w → b = true → b' = b := by
      rintro rfl rfl
      exact ih.compares_self hσ.strict' hh' hc' (hv.symm.trans hw)
    have hself' : v' = w' → b' = true → b' = b := by
      rintro rfl rfl
      exact (ih.compares_self hσ.strict hh hc (hv.trans hw.symm)).symm
    cases hc with
    | same => exact hself rfl rfl
    | loose h => cases hσ.strict.symm.trans h
    | atoms hpairs hvc =>
      cases hc' with
      | same => exact hself' rfl rfl
      | loose h => cases hσ.strict'.symm.trans h
      | atoms => exact hv.sameAtom_eq hw hvc hpairs
      | heads | tails =>
        cases hv
        cases hw
        exact absurd ⟨_, _, _, _, rfl, rfl⟩ hpairs
    | heads hk hi hi' hx =>
      cases hv with
      | pair hij hjj =>
        cases hw with
        | pair hij' hjj' =>
          cases hc' with
          | same => exact hself' rfl rfl
          | loose h => cases hσ.strict'.symm.trans h
          | atoms hpairs => exact absurd ⟨_, _, _, _, rfl, rfl⟩ hpairs
          | heads => rfl
          | tails hk' hi2 hi2' hx2 =>
            cases ihh _ hk (hk.le.trans hh) (hk'.le.trans hh') hx hx2
              (ih.reads hσ (hk.le.trans hh) (hk'.le.trans hh') hi hi2 hij)
              (ih.reads hσ (hk.le.trans hh) (hk'.le.trans hh') hi' hi2' hij')
    | tails hk hi hi' hx hj hj' hlist hlist' hy =>
      cases hv with
      | pair hij hjj =>
        cases hw with
        | pair hij' hjj' =>
          cases hc' with
          | same => exact hself' rfl rfl
          | loose h => cases hσ.strict'.symm.trans h
          | atoms hpairs => exact absurd ⟨_, _, _, _, rfl, rfl⟩ hpairs
          | heads hk' hi2 hi2' hx2 =>
            cases ihh _ hk (hk.le.trans hh) (hk'.le.trans hh') hx hx2
              (ih.reads hσ (hk.le.trans hh) (hk'.le.trans hh') hi hi2 hij)
              (ih.reads hσ (hk.le.trans hh) (hk'.le.trans hh') hi' hi2' hij')
          | tails hk' hi2 hi2' hx2 hj2 hj2' _ _ hy2 =>
            exact ihh _ hk (hk.le.trans hh) (hk'.le.trans hh') hy hy2
              (ih.reads hσ (hk.le.trans hh) (hk'.le.trans hh') hj hj2 hjj)
              (ih.reads hσ (hk.le.trans hh) (hk'.le.trans hh') hj' hj2' hjj')

/-- Twins mean twins: the same expression means the same in environments that correspond. -/
theorem means (ih : TwinsBelow N) (hσ : σ.Alike σ') (hh : h ≤ N) (hh' : h' ≤ N)
    (hm : Means σ B h env e v) (hm' : Means σ' C h' env' e v') (henv : EnvTwins B C env env') :
    ValueTwins B C v v' := by
  have hless : ∀ {k k' env env' e v v'}, k < h → k' < h' → Means σ B k env e v →
      Means σ' C k' env' e v' → EnvTwins B C env env' → ValueTwins B C v v' :=
    fun hk hk' => ih hσ (hk.trans_le hh) (hk'.trans_le hh')
  cases hm with
  | int n =>
    cases hm'
    exact .int n
  | bool b =>
    cases hm'
    exact .bool b
  | null =>
    cases hm'
    exact .null
  | prim p =>
    cases hm'
    exact .prim p
  | map id =>
    cases hm'
    exact .closure henv
  | var hx hv =>
    cases hm' with
    | var hx' hv' =>
      obtain ⟨b', hb', hslots⟩ := henv.at? hx
      cases hb'.symm.trans hx'
      exact ih.reads hσ hh hh' hv hv' hslots
  | unary hk he hop =>
    cases hm' with
    | unary hk' he' hop' =>
      have hv := hless hk hk' he he' henv
      cases hop.symm.trans ((hv.unaryOnPlain?_eq _).symm.trans hop')
      exact .scalar _
  | binary hk hl hr hop =>
    cases hm' with
    | binary hk' hl' hr' hop' =>
      have hv := hless hk hk' hl hl' henv
      have hw := hless hk hk' hr hr' henv
      cases hop.symm.trans ((hv.onPlain?_eq hw _).symm.trans hop')
      exact .scalar _
    | compare hk' hop' hl' hr' hc' =>
      rw [BinaryOp.onPlain?_of_comparison? hop'] at hop
      cases hop
    | logical hk' hop' hl' hr' =>
      rw [BinaryOp.onPlain?_of_decisive? hop'] at hop
      cases hop
  | compare hk hop hl hr hc =>
    cases hm' with
    | binary hk' hl' hr' hop' =>
      rw [BinaryOp.onPlain?_of_comparison? hop] at hop'
      cases hop'
    | compare hk' hop' hl' hr' hc' =>
      cases hop.symm.trans hop'
      rw [ih.compares hσ (hk.le.trans hh) (hk'.le.trans hh') hc hc' (hless hk hk' hl hl' henv)
        (hless hk hk' hr hr' henv)]
      exact .bool _
    | logical hk' hop' hl' hr' => cases hop.symm.trans (BinaryOp.comparison?_of_decisive? hop')
  | logical hk hop hl hr =>
    cases hm' with
    | binary hk' hl' hr' hop' =>
      rw [BinaryOp.onPlain?_of_decisive? hop] at hop'
      cases hop'
    | compare hk' hop' hl' hr' hc' => cases hop'.symm.trans (BinaryOp.comparison?_of_decisive? hop)
    | logical hk' hop' hl' hr' =>
      cases hop.symm.trans hop'
      cases hless hk hk' hl hl' henv
      split
      · exact .bool _
      · rename_i hb
        exact hless hk hk' (hr hb) (hr' hb) henv
  | call hk hf hlen hframe w hargs hbody =>
    cases hm' with
    | call hk' hf' hlen' hframe' w' hargs' hbody' =>
      have hc := hless hk hk' hf hf' henv
      have hframes := Bindings.Row.twins .plain hframe (hσ.binding ▸ hframe') henv
      cases hc with
      | closure houter => exact hless hk hk' hbody hbody' (.cons hframes houter)
    | cons hk' hf' => cases hless hk hk' hf hf' henv
    | inspect hk' hf' => cases hless hk hk' hf hf' henv
    | first hk' hf' => cases hless hk hk' hf hf' henv
    | rest hk' hf' => cases hless hk hk' hf hf' henv
  | cons hk hf hi hj =>
    cases hm' with
    | call hk' hf' => cases hless hk hk' hf hf' henv
    | cons hk' hf' hi' hj' =>
      exact .pair (.intro hi hi' ⟨rfl, rfl, henv⟩) (.intro hj hj' ⟨rfl, rfl, henv⟩)
  | inspect hk hf he hp =>
    cases hm' with
    | call hk' hf' => cases hless hk hk' hf hf' henv
    | inspect hk' hf' he' hp' =>
      cases hless hk hk' hf hf' henv
      have hv := hless hk hk' he he' henv
      cases hp.symm.trans ((hv.inspect?_eq _).symm.trans hp')
      exact .scalar _
    | first hk' hf' =>
      cases hless hk hk' hf hf' henv
      rw [Prim.inspect?_first] at hp
      cases hp
    | rest hk' hf' =>
      cases hless hk hk' hf hf' henv
      rw [Prim.inspect?_rest] at hp
      cases hp
  | first hk hf he hv =>
    cases hm' with
    | call hk' hf' => cases hless hk hk' hf hf' henv
    | inspect hk' hf' he' hp' =>
      cases hless hk hk' hf hf' henv
      rw [Prim.inspect?_first] at hp'
      cases hp'
    | first hk' hf' he' hv' =>
      cases hless hk hk' he he' henv with
      | pair hi hj =>
        exact ih.reads hσ (hk.le.trans hh) (hk'.le.trans hh') hv hv' hi
    | rest hk' hf' => cases hless hk hk' hf hf' henv
  | rest hk hf he hv hlist =>
    cases hm' with
    | call hk' hf' => cases hless hk hk' hf hf' henv
    | inspect hk' hf' he' hp' =>
      cases hless hk hk' hf hf' henv
      rw [Prim.inspect?_rest] at hp'
      cases hp'
    | first hk' hf' => cases hless hk hk' hf hf' henv
    | rest hk' hf' he' hv' hlist' =>
      cases hless hk hk' he he' henv with
      | pair hi hj =>
        exact ih.reads hσ (hk.le.trans hh) (hk'.le.trans hh') hv hv' hj
  | cond hk ht he =>
    cases hm' with
    | cond hk' ht' he' =>
      cases hless hk hk' ht ht' henv
      exact hless hk hk' he he' henv
  | letIn hk hframe w hdefs hbody =>
    cases hm' with
    | letIn hk' hframe' w' hdefs' hbody' =>
      exact hless hk hk' hbody hbody' (.cons (hframe.twins _ (hσ.binding ▸ hframe') henv) henv)
  | blockNil =>
    cases hm'
    exact .unit
  | blockLast hk he =>
    cases hm' with
    | blockLast hk' he' => exact hless hk hk' he he' henv
  | blockCons hk he hes =>
    cases hm' with
    | blockCons hk' he' hes' => exact hless hk hk' hes hes' henv

end TwinsBelow

theorem twinsBelow (N : Nat) : TwinsBelow N := by
  induction N with
  | zero => exact fun _ hk => absurd hk (Nat.not_lt_zero _)
  | succ N ih =>
    exact fun hσ hk hk' => ih.means hσ (Nat.le_of_lt_succ hk) (Nat.le_of_lt_succ hk')

/-- An expression means the same in environments of twins. -/
theorem Means.twins (hσ : σ.Alike σ') (hm : Means σ B h env e v)
    (hm' : Means σ' C h' env' e v') (henv : EnvTwins B C env env') : ValueTwins B C v v' :=
  TwinsBelow.means (twinsBelow _) hσ (Nat.le_max_left h h') (Nat.le_max_right h h') hm hm' henv

theorem Reads.twins (hσ : σ.Alike σ') (hr : Reads σ B h i v) (hr' : Reads σ' C h' j v')
    (hij : Twins B C i j) : ValueTwins B C v v' :=
  TwinsBelow.reads (twinsBelow _) hσ (Nat.le_max_left h h') (Nat.le_max_right h h') hr hr' hij

theorem Compares.unique (hσ : σ.Alike σ') (hc : Compares σ B h v w b)
    (hc' : Compares σ' C h' v' w' b') (hv : ValueTwins B C v v') (hw : ValueTwins B C w w') :
    b' = b :=
  TwinsBelow.compares (twinsBelow _) hσ (Nat.le_max_left h h') (Nat.le_max_right h h') hc hc' hv hw

end Mapling
