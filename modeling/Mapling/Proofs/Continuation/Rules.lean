import Mapling.Continuation
import Mathlib.Tactic

/-! # The rules of conversion

What a conversion that refuses nothing does, as rules. `Converts k e n c n'` says that the
expression `e` with the continuation `k` is converted to `c` when `n` names have been made before,
and that `n'` names have been made then; there is one such relation for each of the functions that
convert. Every conversion follows the rules (`follows_convert`), so that what holds of all
converted programs is proved along the rules, without the state and the order of the recursion.

A conversion that refuses something refuses one definition of every recursive form with a value that
is not simple, except for what is inside of such forms (`Expr.refusals`). -/

namespace Mapling

variable {e k body : NamedExpr} {defs : List (Ident × NamedExpr)} {s : Span} {kind : LetKind}

namespace Conversion

open Mapling.Expr

/-! ## The relations -/

/-- The names that are made next after `n`, `a` of them. -/
def namesAfter (n : Nat) : Nat → List Ident
  | 0 => []
  | a + 1 => freshName (n + 1) :: namesAfter (n + 1) a

/-- What a primitive returns as a function with a continuation. -/
def primResult (p : Prim) (args : List NamedExpr) : NamedExpr :=
  if p = .arity then mkBinary .sub (mkApp (.prim .synthetic p) args) (.int .synthetic 1)
  else mkApp (.prim .synthetic p) args

/-- The function that a primitive becomes when `n` names have been made. -/
def primFunction (n : Nat) (p : Prim) : NamedExpr :=
  let k := freshName (n + p.parameters + 1)
  mkMap (namesAfter n p.parameters ++ [k])
    (mkApp (mkVar k) [primResult p ((namesAfter n p.parameters).map mkVar)])

/-- The continuation `k` is used as `k'` inside of `wrap`. -/
inductive Shares : NamedExpr → Nat → NamedExpr → (NamedExpr → NamedExpr) → Nat → Prop where
  | isVar (s : Span) (x : Ident) (n : Nat) : Shares (.var s x) n (.var s x) id n
  | named {k : NamedExpr} {n : Nat} (hk : ∀ s x, k ≠ .var s x) :
    Shares k n (mkVar (freshName (n + 1))) (fun body => mkLet [(freshName (n + 1), k)] body) (n + 1)

/-- The operands `es` of `e` are evaluated before anything else of it, and `e'` is `e` with `es'` in
their place. -/
inductive Replaces : NamedExpr → List NamedExpr → NamedExpr → List NamedExpr → Prop where
  | primCall {f : NamedExpr} {s : Span} {args args' : List NamedExpr} (hf : f.isPrim) :
    Replaces (.app s f args) args (.app s f args') args'
  | call {f f' : NamedExpr} {s : Span} {args args' : List NamedExpr} (hf : ¬ f.isPrim) :
    Replaces (.app s f args) (f :: args) (.app s f' args') (f' :: args')
  | unary {e e' : NamedExpr} {s : Span} {op : UnaryOp} :
    Replaces (.unary s op e) [e] (.unary s op e') [e']
  | binary {l r l' r' : NamedExpr} {s : Span} {op : BinaryOp} (hand : op ≠ .and) (hor : op ≠ .or) :
    Replaces (.binary s op l r) [l, r] (.binary s op l' r') [l', r']
  | test {t t' a b : NamedExpr} {s : Span} : Replaces (.cond s t a b) [t] (.cond s t' a b) [t']
  | values {body : NamedExpr} {s : Span} {defs : List (Ident × NamedExpr)} {es' : List NamedExpr}
    (hlen : es'.length = defs.length) :
    Replaces (.letIn s .plain defs () body) (defValues defs)
      (.letIn s .plain (rebind defs es') () body) es'

mutual

inductive Converts : NamedExpr → NamedExpr → Nat → NamedExpr → Nat → Prop where
  | simple {k e r : NamedExpr} {n n' : Nat} (hs : e.isSimple) (hr : Reshapes e n r n') :
    Converts k e n (mkApp k [r]) n'
  | operands {k e e' c : NamedExpr} {es : List NamedExpr} {n n' : Nat} (hs : ¬ allSimple es)
    (he : Replaces e es e' (standIns n es))
    (hc : Chains k (temporaries n es) e' (n + (temporaries n es).length) c n') : Converts k e n c n'
  | call {k f f' : NamedExpr} {s : Span} {args args' : List NamedExpr} {n n1 n2 : Nat}
    (hf : ¬ f.isPrim) (hs : allSimple (f :: args)) (hr : Reshapes f n f' n1)
    (hrs : ReshapesAll args n1 args' n2) :
    Converts k (.app s f args) n (.app s f' (args' ++ [k])) n2
  | and {k l r c : NamedExpr} {s : Span} {n n' : Nat} (hs : ¬ (l.isSimple ∧ r.isSimple))
    (hc : Converts k (mkCond l (.binary r.span .and r (.bool .synthetic true))
      (.bool .synthetic false)) n c n') :
    Converts k (.binary s .and l r) n c n'
  | or {k l r c : NamedExpr} {s : Span} {n n' : Nat} (hs : ¬ (l.isSimple ∧ r.isSimple))
    (hc : Converts k (mkCond l (.bool .synthetic true)
      (.binary r.span .or r (.bool .synthetic false))) n c n') :
    Converts k (.binary s .or l r) n c n'
  | cond {k k' t t' a a' b b' c : NamedExpr} {wrap : NamedExpr → NamedExpr} {s : Span}
    {n n1 n2 n3 n4 : Nat} (ht : t.isSimple) (hs : ¬ (a.isSimple ∧ b.isSimple))
    (hr : Reshapes t n t' n1) (hk : Shares k n1 k' wrap n2) (ha : Converts k' a n2 a' n3)
    (hb : Converts k' b n3 b' n4) (hc : c = wrap (.cond s t' a' b')) :
    Converts k (.cond s t a b) n c n4
  | letIn {k k' body b c : NamedExpr} {wrap : NamedExpr → NamedExpr} {s : Span} {kind : LetKind}
    {defs defs' : List (Ident × NamedExpr)} {n n1 n2 n3 : Nat} (hd : defsSimple defs)
    (hs : ¬ body.isSimple) (hr : ReshapesDefs defs n defs' n1) (hk : Shares k n1 k' wrap n2)
    (hb : Converts k' body n2 b n3) (hc : c = wrap (.letIn s kind defs' () b)) :
    Converts k (.letIn s kind defs () body) n c n3
  | letOne {k k' e e' body b c : NamedExpr} {wrap : NamedExpr → NamedExpr} {s : Span} {x : Ident}
    {n n1 n2 n3 : Nat} (hs : ¬ e.isSimple) (hk : Shares k n k' wrap n1)
    (hb : Converts k' body n1 b n2) (he : Converts (mkMap [x] b) e n2 e' n3)
    (hc : c = wrap e') :
    Converts k (.letIn s .plain [(x, e)] () body) n c n3
  | block {k c : NamedExpr} {s : Span} {es : List NamedExpr} {n n' : Nat} (hs : ¬ allSimple es)
    (hc : ConvertsAll k es n c n') : Converts k (.block s es) n c n'

inductive Chains : NamedExpr → List (Ident × NamedExpr) → NamedExpr → Nat → NamedExpr → Nat →
    Prop where
  | nil {k body c : NamedExpr} {n n' : Nat} (hc : Converts k body n c n') :
    Chains k [] body n c n'
  | simple {k e r body c : NamedExpr} {x : Ident} {ts : List (Ident × NamedExpr)} {n n1 n2 : Nat}
    (hs : e.isSimple) (hr : Reshapes e n r n1) (hc : Chains k ts body n1 c n2) :
    Chains k ((x, e) :: ts) body n (mkLet [(x, r)] c) n2
  | call {k e rest body c : NamedExpr} {x : Ident} {ts : List (Ident × NamedExpr)}
    {n n1 n2 : Nat} (hs : ¬ e.isSimple) (hr : Chains k ts body n rest n1)
    (hc : Converts (mkMap [x] rest) e n1 c n2) :
    Chains k ((x, e) :: ts) body n c n2

inductive ConvertsAll : NamedExpr → List NamedExpr → Nat → NamedExpr → Nat → Prop where
  | nil {k c : NamedExpr} {n n' : Nat} (hc : Converts k (.null .synthetic) n c n') :
    ConvertsAll k [] n c n'
  | last {k e c : NamedExpr} {n n' : Nat} (hc : Converts k e n c n') : ConvertsAll k [e] n c n'
  | simple {k e e' r c : NamedExpr} {es : List NamedExpr} {n n1 n2 : Nat} (hs : e.isSimple)
    (hr : Reshapes e n r n1) (hc : ConvertsAll k (e' :: es) n1 c n2) :
    ConvertsAll k (e :: e' :: es) n (.block .synthetic [r, c]) n2
  | call {k e e' rest c : NamedExpr} {es : List NamedExpr} {n n1 n2 : Nat} (hs : ¬ e.isSimple)
    (hr : ConvertsAll k (e' :: es) (n + 1) rest n1)
    (hc : Converts (mkMap [freshName (n + 1)]
      (.block .synthetic [mkVar (freshName (n + 1)), rest])) e n1 c n2) :
    ConvertsAll k (e :: e' :: es) n c n2

inductive Reshapes : NamedExpr → Nat → NamedExpr → Nat → Prop where
  | int (s : Span) (i : Int) (n : Nat) : Reshapes (.int s i) n (.int s i) n
  | bool (s : Span) (b : Bool) (n : Nat) : Reshapes (.bool s b) n (.bool s b) n
  | null (s : Span) (n : Nat) : Reshapes (.null s) n (.null s) n
  | var (s : Span) (x : Ident) (n : Nat) : Reshapes (.var s x) n (.var s x) n
  | prim (s : Span) (p : Prim) (n : Nat) :
    Reshapes (.prim s p) n (primFunction n p) (n + p.parameters + 1)
  | map {body b : NamedExpr} {s : Span} {params : List Ident} {n n' : Nat}
    (hb : Converts (mkVar (freshName (n + 1))) body (n + 1) b n') :
    Reshapes (.map s params () body) n (.map s (params ++ [freshName (n + 1)]) () b) n'
  | arity {f : NamedExpr} {s : Span} {args args' : List NamedExpr} {n n' : Nat}
    (hf : isArity f) (hr : ReshapesAll args n args' n') :
    Reshapes (.app s f args) n (.binary s .sub (.app s f args') (.int .synthetic 1)) n'
  | app {f : NamedExpr} {s : Span} {args args' : List NamedExpr} {n n' : Nat}
    (hf : ¬ isArity f) (hr : ReshapesAll args n args' n') :
    Reshapes (.app s f args) n (.app s f args') n'
  | unary {e r : NamedExpr} {s : Span} {op : UnaryOp} {n n' : Nat} (hr : Reshapes e n r n') :
    Reshapes (.unary s op e) n (.unary s op r) n'
  | binary {l l' r r' : NamedExpr} {s : Span} {op : BinaryOp} {n n1 n2 : Nat}
    (hl : Reshapes l n l' n1) (hr : Reshapes r n1 r' n2) :
    Reshapes (.binary s op l r) n (.binary s op l' r') n2
  | cond {t t' a a' b b' : NamedExpr} {s : Span} {n n1 n2 n3 : Nat} (ht : Reshapes t n t' n1)
    (ha : Reshapes a n1 a' n2) (hb : Reshapes b n2 b' n3) :
    Reshapes (.cond s t a b) n (.cond s t' a' b') n3
  | letIn {body b : NamedExpr} {s : Span} {kind : LetKind} {defs defs' : List (Ident × NamedExpr)}
    {n n1 n2 : Nat} (hd : ReshapesDefs defs n defs' n1) (hb : Reshapes body n1 b n2) :
    Reshapes (.letIn s kind defs () body) n (.letIn s kind defs' () b) n2
  | block {s : Span} {es es' : List NamedExpr} {n n' : Nat} (hr : ReshapesAll es n es' n') :
    Reshapes (.block s es) n (.block s es') n'

inductive ReshapesAll : List NamedExpr → Nat → List NamedExpr → Nat → Prop where
  | nil (n : Nat) : ReshapesAll [] n [] n
  | cons {e r : NamedExpr} {es es' : List NamedExpr} {n n1 n2 : Nat} (hr : Reshapes e n r n1)
    (hrs : ReshapesAll es n1 es' n2) : ReshapesAll (e :: es) n (r :: es') n2

inductive ReshapesDefs : List (Ident × NamedExpr) → Nat → List (Ident × NamedExpr) → Nat →
    Prop where
  | nil (n : Nat) : ReshapesDefs [] n [] n
  | cons {e r : NamedExpr} {x : Ident} {ds ds' : List (Ident × NamedExpr)} {n n1 n2 : Nat}
    (hr : Reshapes e n r n1) (hrs : ReshapesDefs ds n1 ds' n2) :
    ReshapesDefs ((x, e) :: ds) n ((x, r) :: ds') n2

end

theorem temporaries_singleton (he : ¬ e.isSimple) (n : Nat) :
    temporaries n [e] = [(freshName (n + 1), e)] := by
  have : ¬ e.isAtomic := fun h => he (isSimple_of_isAtomic h)
  simp [temporaries, this]

theorem standIn_of_not_isSimple (he : ¬ e.isSimple) (n : Nat) :
    standIn n e = mkVar (freshName (n + 1)) := by
  have : ¬ e.isAtomic := fun h => he (isSimple_of_isAtomic h)
  simp [standIn, this]

/-- An operand that is not simple is bound to a temporary. -/
theorem Converts.operand {e' t c : NamedExpr} {n n' : Nat} (ht : ¬ t.isSimple)
    (he : Replaces e [t] e' [mkVar (freshName (n + 1))])
    (hc : Chains k [(freshName (n + 1), t)] e' (n + 1) c n') : Converts k e n c n' := by
  rw [← standIn_of_not_isSimple ht] at he
  exact .operands (by simpa [allSimple] using ht) he (by rwa [temporaries_singleton ht])

/-! ## What is refused -/

end Conversion

namespace Expr

open Conversion

mutual

/-- What is refused of the program: of every recursive form with a definition whose value is not
simple the first such definition, if the form is not inside of another one. -/
def refusals : NamedExpr → List Ident
  | .int _ _ | .bool _ _ | .null _ | .var _ _ | .prim _ _ => []
  | .unary _ _ e => e.refusals
  | .binary _ _ l r => l.refusals ++ r.refusals
  | .app _ f args => f.refusals ++ allRefusals args
  | .map _ _ _ body => body.refusals
  | .cond _ t a b => t.refusals ++ (a.refusals ++ b.refusals)
  | .letIn _ .plain defs _ body => defsRefusals defs ++ body.refusals
  | .letIn _ .recursive defs _ body =>
    match firstNonSimple defs with
    | some x => [x]
    | none => defsRefusals defs ++ body.refusals
  | .block _ es => allRefusals es

def allRefusals : List NamedExpr → List Ident
  | [] => []
  | e :: es => e.refusals ++ allRefusals es

def defsRefusals : List (Ident × NamedExpr) → List Ident
  | [] => []
  | d :: ds => defRefusals d ++ defsRefusals ds

def defRefusals : Ident × NamedExpr → List Ident
  | (_, e) => e.refusals

end

end Expr

namespace Conversion

open Mapling.Expr

theorem defsSimple_iff (defs : List (Ident × NamedExpr)) :
    defsSimple defs ↔ ∀ d ∈ defs, d.2.isSimple := by
  induction defs with
  | nil => simp [defsSimple]
  | cons d ds ih =>
    obtain ⟨x, e⟩ := d
    simp [defsSimple, defSimple, ih]

theorem firstNonSimple_eq_none_iff : firstNonSimple defs = none ↔ defsSimple defs := by
  rw [firstNonSimple, Option.map_eq_none_iff, List.find?_eq_none, defsSimple_iff]
  simp

theorem refusals_letIn (hd : defsSimple defs) :
    (Expr.letIn s kind defs () body : NamedExpr).refusals = defsRefusals defs ++ body.refusals := by
  cases kind with
  | plain => rw [refusals]
  | recursive => rw [refusals, firstNonSimple_eq_none_iff.mpr hd]

theorem refusals_of_isPrim {f : NamedExpr} (hf : f.isPrim) : f.refusals = [] := by
  cases f <;> first | rfl | cases hf

theorem defsRefusals_zip (xs : List Ident) (es : List NamedExpr) (h : es.length ≤ xs.length) :
    defsRefusals (xs.zip es) = allRefusals es := by
  induction xs generalizing es with
  | nil => simp_all [defsRefusals, allRefusals]
  | cons x xs ih =>
    cases es with
    | nil => rfl
    | cons e es =>
      rw [List.zip_cons_cons, defsRefusals, defRefusals, allRefusals, ih es (by simpa using h)]

theorem allRefusals_defValues (defs : List (Ident × NamedExpr)) :
    allRefusals (defValues defs) = defsRefusals defs := by
  induction defs with
  | nil => rfl
  | cons d ds ih =>
    obtain ⟨x, e⟩ := d
    rw [defsRefusals, ← ih]
    rfl

theorem length_standIns (n : Nat) (es : List NamedExpr) : (standIns n es).length = es.length := by
  induction es generalizing n with
  | nil => rfl
  | cons e es ih => simp [standIns, ih]

/-- What is refused of operands is refused of their temporaries and of what stands in for them. -/
theorem refusals_standIns (n : Nat) (es : List NamedExpr) :
    (defsRefusals (temporaries n es) ++ allRefusals (standIns n es)).Perm (allRefusals es) := by
  induction es generalizing n with
  | nil => rfl
  | cons e es ih =>
    by_cases he : e.isAtomic
    · simp only [temporaries, standIns, standIn, countAfter, he, if_true, allRefusals]
      exact (List.perm_append_comm_assoc _ _ _).trans ((ih n).append_left _)
    · simp only [temporaries, standIns, standIn, countAfter, he, if_false, allRefusals,
        defsRefusals, defRefusals, mkVar, refusals, List.nil_append, List.append_assoc,
        Bool.false_eq_true]
      exact (ih (n + 1)).append_left _

/-! ## Computations that follow a rule -/

def faultOf (x : Ident) : ConversionFault × Span := (⟨x.name⟩, x.span)

/-- The computation refuses the definitions `fs`, in some order, and if there are none it does what
the rule `R` says: `R n a n'` for the result `a`, if `n` names have been made before and `n'` after
it. -/
def Follows {α : Type} (x : Conversion α) (fs : List Ident) (R : Nat → α → Nat → Prop) : Prop :=
  ∀ ν, (∃ xs : List Ident, xs.Perm fs ∧ (x.run ν).2.faults = ν.faults ++ xs.map faultOf) ∧
    (fs = [] → R ν.count (x.run ν).1 (x.run ν).2.count)

namespace Follows

variable {α β : Type} {x : Conversion α} {fs gs : List Ident} {R : Nat → α → Nat → Prop}

/-- A step that refuses nothing. -/
theorem of_faults (hx : ∀ ν, (x.run ν).2.faults = ν.faults)
    (hR : ∀ ν, R ν.count (x.run ν).1 (x.run ν).2.count) : Follows x [] R :=
  fun ν => ⟨⟨[], .refl _, by simp [hx ν]⟩, fun _ => hR ν⟩

theorem pure {a : α} (h : ∀ n, R n a n) : Follows (pure a) [] R :=
  of_faults (fun _ => rfl) (fun ν => h ν.count)

theorem bind {f : α → Conversion β} {T : Nat → β → Nat → Prop} (hx : Follows x fs R)
    (hf : ∀ a, Follows (f a) gs (fun n' b n'' => ∀ n, R n a n' → T n b n'')) :
    Follows (x >>= f) (fs ++ gs) T := by
  intro ν
  have hrun : (x >>= f).run ν = (f (x.run ν).1).run (x.run ν).2 := rfl
  rw [hrun]
  obtain ⟨⟨xs, hxs, hν⟩, hR⟩ := hx ν
  obtain ⟨⟨ys, hys, hν'⟩, hT⟩ := hf (x.run ν).1 (x.run ν).2
  refine ⟨⟨xs ++ ys, hxs.append hys, by rw [hν', hν, List.map_append, List.append_assoc]⟩,
    fun hnil => ?_⟩
  obtain ⟨rfl, rfl⟩ := List.append_eq_nil_iff.mp hnil
  exact hT rfl _ (hR rfl)

theorem mono {T : Nat → α → Nat → Prop} (hx : Follows x fs R)
    (h : ∀ n a n', R n a n' → T n a n') : Follows x fs T :=
  fun ν => ⟨(hx ν).1, fun hnil => h _ _ _ ((hx ν).2 hnil)⟩

theorem perm (h : fs.Perm gs) (hx : Follows x fs R) : Follows x gs R := by
  intro ν
  obtain ⟨⟨xs, hxs, hν⟩, hR⟩ := hx ν
  exact ⟨⟨xs, hxs.trans h, hν⟩, fun hnil => hR (hnil ▸ h).eq_nil⟩

theorem fresh : Follows fresh [] (fun n x n' => x = freshName (n + 1) ∧ n' = n + 1) :=
  of_faults (fun _ => rfl) (fun _ => ⟨rfl, rfl⟩)

theorem freshNames (a : Nat) :
    Follows (freshNames a) [] (fun n xs n' => xs = namesAfter n a ∧ n' = n + a) := by
  induction a with
  | zero => exact pure (fun _ => ⟨rfl, rfl⟩)
  | succ a ih =>
    refine fresh.bind fun x => ih.bind fun xs => pure ?_
    rintro n' n1 ⟨rfl, rfl⟩ n ⟨rfl, rfl⟩
    exact ⟨rfl, by omega⟩

theorem reserve (es : List NamedExpr) :
    Follows (reserve es) [] (fun n m n' => m = n ∧ n' = n + (temporaries n es).length) :=
  of_faults (fun _ => rfl) (fun _ => ⟨rfl, rfl⟩)

theorem share (k : NamedExpr) :
    Follows (share k) [] (fun n r n' => Shares k n r.1 r.2 n') := by
  by_cases hk : ∃ s x, k = .var s x
  · obtain ⟨s, x, rfl⟩ := hk
    exact pure (fun n => .isVar s x n)
  · have hk : ∀ s x, k ≠ .var s x := fun s x h => hk ⟨s, x, h⟩
    unfold Conversion.share
    split
    · exact absurd rfl (hk _ _)
    · refine fresh.bind fun x => pure ?_
      rintro n' n ⟨rfl, rfl⟩
      exact .named hk

/-- A refusal follows any rule. -/
theorem refuse (x : Ident) (a : α) : Follows (do refuse x; return a) [x] R :=
  fun _ => ⟨⟨[x], .refl _, rfl⟩, nofun⟩

theorem reshapePrim (p : Prim) :
    Follows (reshapePrim p) []
      (fun n r n' => r = primFunction n p ∧ n' = n + p.parameters + 1) := by
  refine (freshNames p.parameters).bind fun xs => fresh.bind fun k => pure ?_
  rintro n' n1 ⟨rfl, rfl⟩ n ⟨rfl, rfl⟩
  exact ⟨rfl, rfl⟩

end Follows

/-- Definitions with simple values stay where they are. -/
theorem Follows.letIn (hd : defsSimple defs) (hs : ¬ body.isSimple)
    (hdefs : Follows (reshapeDefs defs) (defsRefusals defs) (ReshapesDefs defs))
    (hbody : ∀ k', Follows (convert k' body) body.refusals (Converts k' body)) :
    Follows (do
      let defs' ← reshapeDefs defs
      let (k', wrap) ← Conversion.share k
      let b ← convert k' body
      return wrap (.letIn s kind defs' () b)) (Expr.letIn s kind defs () body).refusals
      (Converts k (.letIn s kind defs () body)) := by
  refine .perm (by simp [refusals_letIn hd]) <| hdefs.bind fun defs' =>
    (share k).bind fun ⟨k', wrap⟩ => (hbody k').bind fun b => .pure ?_
  exact fun n3 n2 hb n1 hk n hr => .letIn hd hs hr hk hb rfl

mutual

/-- Converting an expression follows the rules, and reports what the rules refuse. -/
theorem follows_convert (k e : NamedExpr) :
    Follows (convert k e) e.refusals (Converts k e) := by
  by_cases hs : e.isSimple
  · rw [convert, dif_pos hs]
    refine .perm (by simp) <| (follows_reshape e hs).bind fun r => .pure ?_
    exact fun n' n hr => .simple hs hr
  · match e with
    | .int _ _ | .bool _ _ | .null _ | .var _ _ | .prim _ _ | .map _ _ _ _ => simp [isSimple] at hs
    | .app s f args =>
      rw [convert, dif_neg hs]
      dsimp only
      split
      · rename_i hf
        have hargs : ¬ allSimple args := fun ha => hs (by simp [isSimple, hf, ha])
        refine (Follows.reserve args).bind fun m => ?_
        have := chainWeight_add_lt m args hargs
        refine .perm ?_ <| (follows_chain k _ _).mono ?_
        · simpa [refusals, refusals_of_isPrim hf] using refusals_standIns m args
        rintro n' c n'' hc n ⟨rfl, rfl⟩
        exact .operands hargs (.primCall hf) hc
      · rename_i hf
        split
        · rename_i hargs
          rw [allSimple, Bool.and_eq_true] at hargs
          refine .perm (by simp [refusals]) <| (follows_reshape f hargs.1).bind fun f' =>
            (follows_reshapeAll args hargs.2).bind fun args' => .pure ?_
          exact fun n2 n1 hrs n hr => .call hf (by rw [allSimple, Bool.and_eq_true]; exact hargs)
            hr hrs
        · rename_i hargs
          refine (Follows.reserve (f :: args)).bind fun m => ?_
          have := chainWeight_add_lt m (f :: args) hargs
          refine .perm ?_ <| (follows_chain k _ _).mono ?_
          · exact refusals_standIns m (f :: args)
          rintro n' c n'' hc n ⟨rfl, rfl⟩
          exact .operands hargs (.call hf) hc
    | .unary s op e =>
      have he : ¬ e.isSimple := by simpa [isSimple] using hs
      have := two_le_weight e he
      rw [convert, dif_neg hs]
      refine Follows.fresh.bind fun t => .perm ?_ <| (follows_chain k _ _).mono ?_
      · simp [refusals, defsRefusals, defRefusals, mkVar]
      rintro n' c n'' hc n ⟨rfl, rfl⟩
      exact .operand he .unary hc
    | .binary s .and l r =>
      have := weight_conjunction s l r hs
      rw [convert, dif_neg hs]
      refine .perm (by simp [refusals, mkCond]) <| (follows_convert k _).mono fun _ _ _ hc => ?_
      exact .and (by simpa [isSimple] using hs) hc
    | .binary s .or l r =>
      have := weight_disjunction s l r hs
      rw [convert, dif_neg hs]
      refine .perm (by simp [refusals, mkCond]) <| (follows_convert k _).mono fun _ _ _ hc => ?_
      exact .or (by simpa [isSimple] using hs) hc
    | .binary s .add l r | .binary s .sub l r | .binary s .mul l r | .binary s .div l r
    | .binary s .eq l r | .binary s .ne l r | .binary s .lt l r | .binary s .le l r
    | .binary s .gt l r | .binary s .ge l r | .binary s .assign l r =>
      rw [convert, dif_neg hs]
      refine (Follows.reserve [l, r]).bind fun m => ?_
      have := chainWeight_add_binary_lt m s _ l r hs
      refine .perm ?_ <| (follows_chain k _ _).mono ?_
      · simpa [standIns, allRefusals, refusals] using refusals_standIns m [l, r]
      rintro n' c n'' hc n ⟨rfl, rfl⟩
      exact .operands (by simpa [isSimple, allSimple] using hs) (.binary nofun nofun) hc
    | .cond s t a b =>
      rw [convert, dif_neg hs]
      dsimp only
      split
      · rename_i ht
        have hab : ¬ (a.isSimple ∧ b.isSimple) := by simpa [isSimple, ht] using hs
        refine .perm (by simp [refusals]) <| (follows_reshape t ht).bind fun t' =>
          (Follows.share k).bind fun ⟨k', wrap⟩ => (follows_convert k' a).bind fun a' =>
            (follows_convert k' b).bind fun b' => .pure ?_
        exact fun n4 n3 hb n2 ha n1 hk n hr => .cond ht hab hr hk ha hb rfl
      · rename_i ht
        have := two_le_weight t ht
        refine Follows.fresh.bind fun x => .perm ?_ <| (follows_chain k _ _).mono ?_
        · simp [refusals, defsRefusals, defRefusals, mkVar]
        rintro n' c n'' hc n ⟨rfl, rfl⟩
        exact .operand ht .test hc
    | .letIn s .plain defs _ body =>
      rw [convert, dif_neg hs]
      dsimp only
      split
      · rename_i hd
        have hbody : ¬ body.isSimple := by simpa [isSimple, hd] using hs
        exact .letIn hd hbody (follows_reshapeDefs defs hd) (fun k' => follows_convert k' body)
      · rename_i hd
        split
        · rename_i x e _ hd
          have he : ¬ e.isSimple := by simpa [defsSimple, defSimple] using hd
          refine .perm ?_ <| (Follows.share k).bind fun ⟨k', wrap⟩ =>
            (follows_convert k' body).bind fun b => (follows_convert _ e).bind fun c => .pure ?_
          · simpa [refusals, defsRefusals, defRefusals] using List.perm_append_comm
          exact fun n3 n2 hc n1 hb n hk => .letOne he hk hb hc rfl
        · refine (Follows.reserve (defValues defs)).bind fun m => ?_
          have := chainWeight_add_rebind_lt m defs hd
          refine .perm ?_ <| (follows_chain k _ _).mono ?_
          · have hperm := refusals_standIns m (defValues defs)
            rw [allRefusals_defValues] at hperm
            have hzip := defsRefusals_zip (defs.map Prod.fst) (standIns m (defValues defs))
              (by simp [length_standIns, defValues])
            simp only [refusals, rebind, hzip, ← List.append_assoc]
            exact hperm.append_right _
          rintro n' c n'' hc n ⟨rfl, rfl⟩
          exact .operands (by rwa [allSimple_values])
            (.values (by simp [length_standIns, defValues])) hc
    | .letIn s .recursive defs _ body =>
      rw [convert, dif_neg hs]
      dsimp only
      split
      · rename_i hx
        rw [refusals, hx]
        exact .refuse _ _
      · rename_i hd
        have hd := firstNonSimple_eq_none_iff.mp hd
        have hbody : ¬ body.isSimple := by simpa [isSimple, hd] using hs
        exact .letIn hd hbody (follows_reshapeDefs defs hd) (fun k' => follows_convert k' body)
    | .block s es =>
      rw [convert, dif_neg hs]
      refine (follows_convertAll k es).mono fun _ _ _ hc => ?_
      exact .block (by simpa [isSimple] using hs) hc
termination_by 3 * e.weight + 1
decreasing_by
  all_goals
    (try simp_all only [weight, listWeight, defsWeight, defWeight, chainWeight, mkVar, standIns])
    omega

/-- Converting a chain of definitions follows the rules. -/
theorem follows_chain (k : NamedExpr) (ts : List (Ident × NamedExpr)) (body : NamedExpr) :
    Follows (chain k ts body) (defsRefusals ts ++ body.refusals) (Chains k ts body) := by
  match ts with
  | [] =>
    rw [chain]
    exact (follows_convert k body).mono (fun _ _ _ hc => .nil hc)
  | (x, e) :: ts =>
    rw [chain]
    split
    · rename_i hs
      refine .perm (by simp [defsRefusals, defRefusals]) <| (follows_reshape e hs).bind fun r =>
        (follows_chain k ts body).bind fun c => .pure ?_
      exact fun n2 n1 hc n hr => .simple hs hr hc
    · rename_i hs
      refine .perm ?_ <| (follows_chain k ts body).bind fun rest => (follows_convert _ e).mono ?_
      · rw [defsRefusals, defRefusals, List.append_assoc (refusals e)]
        exact List.perm_append_comm
      exact fun n1 c n2 hc n hr => .call hs hr hc
termination_by 3 * (chainWeight ts + body.weight) + 2
decreasing_by
  all_goals
    simp only [chainWeight]
    omega

/-- Converting a sequence follows the rules. -/
theorem follows_convertAll (k : NamedExpr) (es : List NamedExpr) :
    Follows (convertAll k es) (allRefusals es) (ConvertsAll k es) := by
  match es with
  | [] =>
    rw [convertAll]
    exact (follows_convert k _).mono (fun _ _ _ hc => .nil hc)
  | [e] =>
    rw [convertAll]
    exact .perm (by simp [allRefusals]) <| (follows_convert k e).mono (fun _ _ _ hc => .last hc)
  | e :: e' :: es =>
    rw [convertAll]
    · split
      · rename_i hs
        refine .perm (by simp [allRefusals]) <| (follows_reshape e hs).bind fun r =>
          (follows_convertAll k (e' :: es)).bind fun c => .pure ?_
        exact fun n2 n1 hc n hr => .simple hs hr hc
      · rename_i hs
        refine .perm ?_ <| Follows.fresh.bind fun t =>
          (follows_convertAll k (e' :: es)).bind fun rest => (follows_convert _ e).mono ?_
        · rw [List.nil_append, allRefusals]
          exact List.perm_append_comm
        rintro n1 c n2 hc n' hr n ⟨rfl, rfl⟩
        exact .call hs hr hc
    · simp
termination_by 3 * listWeight es + 2
decreasing_by
  all_goals
    simp only [listWeight, weight]
    omega

/-- Reshaping a simple expression follows the rules. -/
theorem follows_reshape (e : NamedExpr) (hs : e.isSimple) :
    Follows (reshape e) e.refusals (Reshapes e) := by
  match e with
  | .int s i => rw [reshape]; exact .pure (.int s i)
  | .bool s b => rw [reshape]; exact .pure (.bool s b)
  | .null s => rw [reshape]; exact .pure (.null s)
  | .var s x => rw [reshape]; exact .pure (.var s x)
  | .prim s p =>
    rw [reshape]
    refine (Follows.reshapePrim p).mono ?_
    rintro n r n' ⟨rfl, rfl⟩
    exact .prim s p n
  | .map s params _ body =>
    rw [reshape]
    refine .perm (by simp [refusals]) <| Follows.fresh.bind fun x =>
      (follows_convert _ body).bind fun b => .pure ?_
    rintro n' n1 hb n ⟨rfl, rfl⟩
    exact .map hb
  | .app s f args =>
    rw [reshape]
    rw [isSimple, Bool.and_eq_true] at hs
    refine .perm (by simp [refusals, refusals_of_isPrim hs.1]) <|
      (follows_reshapeAll args hs.2).bind fun args' => .pure ?_
    intro n' n hr
    split
    · exact .arity ‹_› hr
    · exact .app ‹_› hr
  | .unary s op e =>
    rw [reshape]
    exact .perm (by simp [refusals]) <| (follows_reshape e (by simpa [isSimple] using hs)).bind
      fun r => .pure fun _ _ hr => .unary hr
  | .binary s op l r =>
    rw [reshape]
    rw [isSimple, Bool.and_eq_true] at hs
    exact .perm (by simp [refusals]) <| (follows_reshape l hs.1).bind fun l' =>
      (follows_reshape r hs.2).bind fun r' => .pure fun _ _ hr _ hl => .binary hl hr
  | .cond s t a b =>
    rw [reshape]
    simp only [isSimple, Bool.and_eq_true] at hs
    exact .perm (by simp [refusals]) <| (follows_reshape t hs.1.1).bind fun t' =>
      (follows_reshape a hs.1.2).bind fun a' => (follows_reshape b hs.2).bind fun b' =>
        .pure fun _ _ hb _ ha _ ht => .cond ht ha hb
  | .letIn s kind defs _ body =>
    rw [reshape]
    rw [isSimple, Bool.and_eq_true] at hs
    exact .perm (by simp [refusals_letIn hs.1]) <| (follows_reshapeDefs defs hs.1).bind fun defs' =>
      (follows_reshape body hs.2).bind fun b => .pure fun _ _ hb _ hd => .letIn hd hb
  | .block s es =>
    rw [reshape]
    exact .perm (by simp [refusals]) <| (follows_reshapeAll es (by simpa [isSimple] using hs)).bind
      fun es' => .pure fun _ _ hr => .block hr
termination_by 3 * e.weight
decreasing_by
  all_goals
    simp only [weight]
    (try split) <;> omega

theorem follows_reshapeAll (es : List NamedExpr) (hs : allSimple es) :
    Follows (reshapeAll es) (allRefusals es) (ReshapesAll es) := by
  match es with
  | [] => rw [reshapeAll]; exact .pure .nil
  | e :: es =>
    rw [reshapeAll]
    rw [allSimple, Bool.and_eq_true] at hs
    exact .perm (by simp [allRefusals]) <| (follows_reshape e hs.1).bind fun r =>
      (follows_reshapeAll es hs.2).bind fun es' => .pure fun _ _ hrs _ hr => .cons hr hrs
termination_by 3 * listWeight es
decreasing_by
  all_goals
    simp only [listWeight]
    omega

theorem follows_reshapeDefs (ds : List (Ident × NamedExpr)) (hs : defsSimple ds) :
    Follows (reshapeDefs ds) (defsRefusals ds) (ReshapesDefs ds) := by
  match ds with
  | [] => rw [reshapeDefs]; exact .pure .nil
  | (x, e) :: ds =>
    rw [reshapeDefs]
    rw [defsSimple, Bool.and_eq_true, defSimple] at hs
    exact .perm (by simp [defsRefusals, defRefusals]) <| (follows_reshape e hs.1).bind fun r =>
      (follows_reshapeDefs ds hs.2).bind fun ds' => .pure fun _ _ hrs _ hr => .cons hr hrs
termination_by 3 * defsWeight ds
decreasing_by
  all_goals
    simp only [defsWeight, defWeight]
    omega

end

/-- What comes of a program: its conversion by the rules, or a report of what is refused. -/
theorem toCps_spec (p : NamedExpr) :
    p.refusals = [] ∧ (∃ q n, p.toCps = .ok q ∧ Converts identityMap p 0 q n) ∨
      p.refusals ≠ [] ∧ ∃ xs : List Ident, xs.Perm p.refusals ∧ p.toCps =
        .error (Report.ofList (xs.map (fun x => ConversionFault.diagnostic ⟨x.name⟩ x.span))) := by
  obtain ⟨⟨xs, hperm, hfaults⟩, hrules⟩ := follows_convert identityMap p ⟨0, []⟩
  rw [List.nil_append] at hfaults
  unfold toCps
  generalize (convert identityMap p).run ⟨0, []⟩ = r at hfaults hrules
  obtain ⟨c, ν⟩ := r
  dsimp only at hfaults hrules ⊢
  cases xs with
  | nil =>
    have hnil : p.refusals = [] := hperm.symm.eq_nil
    exact .inl ⟨hnil, c, ν.count, by rw [hfaults]; rfl, hrules hnil⟩
  | cons x xs =>
    refine .inr ⟨fun hnil => ?_, x :: xs, hperm, ?_⟩
    · rw [hnil] at hperm
      cases hperm.eq_nil
    · simp only [hfaults, List.map_cons, List.map_map]
      rfl

/-- A program that is converted is converted by the rules. -/
theorem converts_of_toCps {p q : NamedExpr} (h : p.toCps = .ok q) :
    ∃ n, Converts identityMap p 0 q n := by
  rcases toCps_spec p with ⟨-, q', n, hq, hc⟩ | ⟨-, xs, -, herror⟩
  · cases h.symm.trans hq
    exact ⟨n, hc⟩
  · cases h.symm.trans herror

end Conversion

end Mapling
