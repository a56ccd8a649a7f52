import Mapling.Proofs.Eval.Fuel

/-! # Watching what is compared

Whether two programs agree can hinge on what they compare: a function is equal to itself only,
and how often a function is made is a matter of policy and of form. To say which values a run
compares, the evaluator is given another comparison for `=` and `!=` (`Machine.evalWith`); with
the equality of values it is the evaluator (`evalWith_equals`). A run that compares nothing of
some kind is then a run that stays the same when such comparisons have no outcome. -/

namespace Mapling

variable {V L : Type}

/-- A way of comparing two values, given how to evaluate what they have put off. -/
abbrev Comparison (V L : Type) := Nat → Evaluator V L → Value V L → Value V L → Eval V L Bool

/-! ## Values with closures in them -/

/-- A value contains a closure: it is one, or one of its parts contains one. -/
inductive ContainsClosure (s : Store V L) : Value V L → Prop
  | closure (id : Nat) (c : Closure V L) : ContainsClosure s (.closure id c)
  | head {h t : Nat} {v : Value V L} (hslot : s.slot h = .ready v) (hv : ContainsClosure s v) :
      ContainsClosure s (.pair h t)
  | tail {h t : Nat} {v : Value V L} (hslot : s.slot t = .ready v) (hv : ContainsClosure s v) :
      ContainsClosure s (.pair h t)
  | ref {i : Nat} (hv : ContainsClosure s (s.cell i)) : ContainsClosure s (.ref i)

open Classical in
/-- Equality, without an outcome for values with closures in them. -/
noncomputable def Eval.equalsUnlessClosure : Comparison V L := fun n ev v w => do
  let s ← get
  if ContainsClosure s v ∨ ContainsClosure s w then EvalOps.exhausted else equals ev n v w

theorem Below.equalsUnlessClosure (n n' : Nat) (ev ev' : Evaluator V L) (v w : Value V L)
    (hn : n ≤ n') (hev : EvaluatorsBelow ev ev') :
    Below (Eval.equalsUnlessClosure n ev v w) (Eval.equals ev' n' v w) := by
  intro s o ho
  rw [Eval.equalsUnlessClosure, outcome_bind_of_ok _ (outcome_get s)] at ho
  split at ho
  · cases ho
  · exact equals hev hn v w s o ho

variable {config : Config} {o : Except EvalError (Value V L) × Store V L} {n n' : Nat}
  {e : Expr V L}

/-! ## Integers -/

/-- Equality, without an outcome for values that are not integers. -/
def Eval.equalsInts : Comparison V L := fun n ev v w =>
  match v, w with
  | .int _, .int _ => equals ev n v w
  | _, _ => EvalOps.exhausted

theorem Below.equalsInts (n n' : Nat) (ev ev' : Evaluator V L) (v w : Value V L) (hn : n ≤ n')
    (hev : EvaluatorsBelow ev ev') :
    Below (Eval.equalsInts n ev v w) (Eval.equalsUnlessClosure n' ev' v w) := by
  unfold Eval.equalsInts
  split
  · rename_i a b
    intro s o ho
    have hclosures : ¬(ContainsClosure s (.int a) ∨ ContainsClosure s (.int b)) := by
      rintro (h | h) <;> cases h
    rw [Eval.equalsUnlessClosure, outcome_bind_of_ok _ (outcome_get s), if_neg hclosures]
    exact equals hev hn _ _ s o ho
  · exact exhausted _

/-! ## Comparing primitives -/

/-- Equality of values that are not pairs. It raises the given error, if one is given, for two
primitives. -/
def Eval.sameMarking (marker : Option EvalError) (v w : Value V L) : Eval V L Bool :=
  match v, w with
  | .prim p, .prim q =>
    match marker with
    | none => return p == q
    | some e => throw e
  | v, w => return sameAtom v w

/-- Equality that raises the given error, if one is given, as soon as two primitives meet. -/
def Eval.marking (marker : Option EvalError) : Comparison V L :=
  fun n ev => equalsBy (sameMarking marker) ev n

theorem Eval.marking_none : (marking none : Comparison V L) = fun n ev => equals ev n := by
  have hatoms : ∀ v w : Value V L, sameMarking none v w = pure (sameAtom v w) := by
    intro v w
    cases v <;> cases w <;> rfl
  funext n ev
  rw [marking, funext fun v => funext (hatoms v)]

theorem Congruence.marking {c : Congruence V L} {n n' : Nat} {ev ev' : Evaluator V L}
    (marker : Option EvalError) (hn : c.within n n')
    (hforce : ∀ label i, c.Rel (Eval.force ev label i) (Eval.force ev' label i))
    (v w : Value V L) : c.Rel (Eval.marking marker n ev v w) (Eval.marking marker n' ev' v w) := by
  refine equalsBy (fun v w => ?_) hn hforce v w
  unfold Eval.sameMarking
  split
  · cases marker with
    | none => exact c.pure _
    | some e => exact c.throw e
  · exact c.pure _

theorem Below.marking (marker : Option EvalError) {n n' : Nat} {ev ev' : Evaluator V L}
    (hev : EvaluatorsBelow ev ev') (hn : n ≤ n') (v w : Value V L) :
    Below (Eval.marking marker n ev v w) (Eval.marking marker n' ev' v w) :=
  Congruence.marking (c := congruence V L) marker hn (force hev) v w

/-! ## Evaluating with a comparison -/

variable [Variable V]

/-- Evaluate an expression with a comparison of its own for `=` and `!=`. -/
abbrev Eval.stepWith (cmp : Comparison V L) (n : Nat) (ev : Evaluator V L) : Evaluator V L :=
  fun m => stepBy (cmp n ev) (fun env body => nested m (ev m env body)) n ev m

/-- Evaluate an expression in an environment, with a comparison of its own. -/
def Machine.evalWith (cmp : Comparison V L) :
    Nat → Machine → Env → Expr V L → Eval V L (Value V L)
  | 0, _, _, _ => EvalOps.exhausted
  | n + 1, m, env, e => Eval.stepWith cmp n (evalWith cmp n) m env e

def evaluateWith (cmp : Comparison V L) (n : Nat) (config : Config) (e : Expr V L) :
    Option (Except EvalError (Value V L) × Store V L) :=
  let (m, s) := Store.empty.newMachine config
  (m.evalWith cmp n [] e).run.run s

/-- Comparing by the equality of values is what the evaluator does. -/
theorem evalWith_equals (n : Nat) :
    (Machine.evalWith (fun n ev => Eval.equals ev n) n : Evaluator V L) = Machine.eval n := by
  induction n with
  | zero => rfl
  | succ n ih =>
    funext m env e
    rw [Machine.evalWith, ih, Machine.eval]

namespace Below

variable {cmp cmp' : Comparison V L}

/-- With a comparison that gives more, and with more fuel, a program gives more. -/
theorem evalWith (hcmp : ∀ n n' ev ev' v w, n ≤ n' → EvaluatorsBelow ev ev' →
    Below (cmp n ev v w) (cmp' n' ev' v w)) {n n' : Nat} (hn : n ≤ n') :
    EvaluatorsBelow (Machine.evalWith cmp n) (Machine.evalWith cmp' n') :=
  levels (fun _ _ _ => rfl) (fun hn hev m env e =>
    (parts hev hn m).stepBy env (fun v w => hcmp _ _ _ _ v w hn hev)
      (fun _ _ => nested m (hev m _ _)) e) hn

/-- A run with a comparison that gives nothing more than equality does is a run of the
evaluator. -/
theorem evalWith_eval (hcmp : ∀ n n' ev ev' v w, n ≤ n' → EvaluatorsBelow ev ev' →
    Below (cmp n ev v w) (Eval.equals ev' n' v w)) (n : Nat) :
    EvaluatorsBelow (Machine.evalWith cmp n) (Machine.eval n) := by
  rw [← evalWith_equals]
  exact evalWith hcmp le_rfl

end Below

/-- The run never applies `=` or `!=` to a value that contains a closure: it is the same when
such comparisons have no outcome. -/
def NeverComparesClosures (n : Nat) (config : Config) (e : Expr V L) : Prop :=
  evaluateWith Eval.equalsUnlessClosure n config e = evaluate n config e

/-- The run never applies `=` or `!=` to two primitives, on their own or as parts of lists: it has
the same outcome whatever error that raises. -/
def NeverComparesPrims (config : Config) (e : Expr V L) : Prop :=
  ∀ marker o, (∃ n, evaluateWith (Eval.marking (some marker)) n config e = some o) ↔
    ∃ n, evaluate n config e = some o

/-- What a run finds without comparing closures it finds. -/
theorem evaluate_of_equalsUnlessClosure
    (h : evaluateWith Eval.equalsUnlessClosure n config e = some o) :
    evaluate n config e = some o :=
  Below.evalWith_eval Below.equalsUnlessClosure n ⟨config, 0⟩ [] e _ o h

/-- A run that compares integers only compares no closures. -/
theorem NeverComparesClosures.of_ints
    (h : (evaluateWith Eval.equalsInts n config e).isSome = true) :
    NeverComparesClosures n config e := by
  obtain ⟨o, ho⟩ := Option.isSome_iff_exists.mp h
  have hunless := Below.evalWith Below.equalsInts le_rfl ⟨config, 0⟩ [] e _ o ho
  exact hunless.trans (evaluate_of_equalsUnlessClosure hunless).symm

/-- What a run finds by comparing integers only it finds whatever comparing primitives raises. -/
theorem evaluateWith_marking_of_ints (h : evaluateWith Eval.equalsInts n config e = some o)
    (marker : Option EvalError) : evaluateWith (Eval.marking marker) n config e = some o := by
  refine Below.evalWith (fun n n' ev ev' v w hn hev => ?_) le_rfl ⟨config, 0⟩ [] e _ o h
  unfold Eval.equalsInts
  split
  · cases n with
    | zero => exact Below.exhausted _
    | succ n =>
      obtain ⟨n', rfl⟩ : ∃ k, n' = k + 1 := ⟨n' - 1, by omega⟩
      exact Below.refl _
  · exact Below.exhausted _

theorem evaluateWith_marking_mono {marker : Option EvalError} (hn : n ≤ n')
    (h : evaluateWith (Eval.marking marker) n config e = some o) :
    evaluateWith (Eval.marking marker) n' config e = some o :=
  Below.evalWith (fun _ _ _ _ v w hn hev => .marking marker hev hn v w) hn ⟨config, 0⟩
    [] e _ o h

theorem evaluateWith_marking_none (n : Nat) (config : Config) (e : Expr V L) :
    evaluateWith (Eval.marking none) n config e = evaluate n config e := by
  rw [Eval.marking_none, evaluateWith, evalWith_equals]
  rfl

/-- A run that compares integers only compares no primitives. -/
theorem NeverComparesPrims.of_ints (h : (evaluateWith Eval.equalsInts n config e).isSome = true) :
    NeverComparesPrims config e := by
  obtain ⟨o, ho⟩ := Option.isSome_iff_exists.mp h
  have honly : ∀ marker o', (∃ k, evaluateWith (Eval.marking marker) k config e = some o') ↔
      o' = o := by
    intro marker o'
    have ho := evaluateWith_marking_of_ints ho marker
    constructor
    · rintro ⟨k, hk⟩
      have h1 := evaluateWith_marking_mono (Nat.le_max_left n k) ho
      have h2 := evaluateWith_marking_mono (Nat.le_max_right n k) hk
      exact Option.some.inj (h2.symm.trans h1)
    · rintro rfl
      exact ⟨n, ho⟩
  intro marker o'
  simp only [← evaluateWith_marking_none]
  rw [honly, honly]

end Mapling
