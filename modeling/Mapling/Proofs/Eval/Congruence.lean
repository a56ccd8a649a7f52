import Mapling.Proofs.Outcome

/-! # Relations that evaluation respects

Much of what is said of the evaluator is said of two runs of it, or of one: with more fuel it gives
no less, with a higher limit it does the same, it leaves no slot marked. Such a statement is a
relation between computations, and its proof goes through the operations of the evaluator one by
one. Most operations do nothing but run others one after the other and decide by their results how
to go on, so they respect every relation that is closed under that.

A `Congruence` is such a relation. What remains to be shown for each of them is how it deals with
the parts of the evaluator that touch the store in a way of their own: reading a slot, making a
pair, binding a frame and calling a closure (`Congruence.Parts`). A relation that ignores its second
argument is a property of computations. -/

namespace Mapling

variable {V L : Type}

/-! ## Congruences -/

/-- A relation between computations that keeps up with doing one thing after the other. The runs
that are related may have different fuel; `within` says for which. -/
structure Congruence (V L : Type) (M : Type → Type := Eval V L) (M' : Type → Type := Eval V L)
    [Monad M] [EvalOps V L M] [MonadState (Store V L) M] [MonadExcept EvalError M]
    [Monad M'] [EvalOps V L M'] [MonadState (Store V L) M'] [MonadExcept EvalError M'] where
  Rel : ∀ {α : Type}, M α → M' α → Prop
  within : Nat → Nat → Prop
  pure : ∀ {α : Type} (a : α), Rel (pure a) (pure a)
  throw : ∀ {α : Type} (e : EvalError), Rel (throw e : M α) (throw e)
  bind : ∀ {α β : Type} {x : M α} {y : M' α} {f : α → M β} {g : α → M' β}, Rel x y →
    (∀ a, Rel (f a) (g a)) → Rel (x >>= f) (y >>= g)
  exhausted : ∀ {α : Type} {n' : Nat} (y : Nat → M' α), y 0 = EvalOps.exhausted →
    within 0 n' → Rel EvalOps.exhausted (y n')
  pred : ∀ {n n' : Nat}, within (n + 1) n' → ∃ k, n' = k + 1 ∧ within n k
  shown : ∀ {n n' : Nat} (v : Value V L), within n n' → Rel (Eval.shown n v) (Eval.shown n' v)
  cell : ∀ (i : Nat) {α : Type} {f : Value V L → M α} {g : Value V L → M' α},
    (∀ v, Rel (f v) (g v)) → Rel (do f ((← get).cell i)) (do g ((← get).cell i))
  newRef : ∀ v : Value V L, Rel (modifyGet (fun s => s.newRef v)) (modifyGet (fun s => s.newRef v))
  setCell : ∀ (i : Nat) (v : Value V L),
    Rel (modify (fun s => s.setCell i v)) (modify (fun s => s.setCell i v))
  newClosure : ∀ c : Closure V L,
    Rel (modifyGet (fun s => s.newClosure c)) (modifyGet (fun s => s.newClosure c))

namespace Congruence

variable {M M' : Type → Type}
  [Monad M] [EvalOps V L M] [MonadState (Store V L) M] [MonadExcept EvalError M]
  [Monad M'] [EvalOps V L M'] [MonadState (Store V L) M'] [MonadExcept EvalError M']
  {c : Congruence V L M M'} {α : Type} {n n' : Nat} {ev : Evaluator V L M}
  {ev' : Evaluator V L M'} {m m' : Machine}

/-- What is left to show of two evaluators: that the relation holds between what they do to a slot,
to a pair and to a frame. -/
structure Parts (c : Congruence V L M M') (n n' : Nat) (ev : Evaluator V L M)
    (ev' : Evaluator V L M') (m m' : Machine) : Prop where
  within : c.within n n'
  eval : ∀ env e, c.Rel (ev m env e) (ev' m' env e)
  force : ∀ label i, c.Rel (Eval.force ev label i) (Eval.force ev' label i)
  cons : ∀ env h t, c.Rel (Eval.cons n ev m env h t) (Eval.cons n' ev' m' env h t)
  frame : ∀ (scope : Frame → Env) (names : List String) (es : List (Expr V L))
    {f : Frame → M (Value V L)} {g : Frame → M' (Value V L)}, (∀ frame, c.Rel (f frame) (g frame)) →
    c.Rel
      (do
        let frame ← EvalOps.newFrame names
        Eval.bindEach ev m (scope frame) frame es
        f frame)
      (do
        let frame ← EvalOps.newFrame names
        Eval.bindEach ev' m' (scope frame) frame es
        g frame)

/-! ## Values -/

theorem ofExcept (r : Except EvalError α) : c.Rel (Eval.ofExcept r) (Eval.ofExcept r) := by
  cases r with
  | ok a => exact c.pure a
  | error e => exact c.throw e

theorem mismatch (hn : c.within n n') (op : String) (v : Value V L) :
    c.Rel (Eval.mismatch n op v : M α) (Eval.mismatch n' op v) :=
  c.bind (c.shown v hn) (fun _ => c.throw _)

theorem forceTail (hn : c.within n n')
    (hforce : ∀ label i, c.Rel (Eval.force ev label i) (Eval.force ev' label i)) (i : Nat) :
    c.Rel (Eval.forceTail n ev i) (Eval.forceTail n' ev' i) := by
  refine c.bind (hforce _ i) (fun v => ?_)
  split
  · exact c.pure v
  · exact c.bind (c.shown v hn) (fun _ => c.throw _)

/-- Comparing part by part respects the relation if comparing what has no parts does. -/
theorem equalsBy {atoms : Value V L → Value V L → M Bool}
    {atoms' : Value V L → Value V L → M' Bool} (hatoms : ∀ v w, c.Rel (atoms v w) (atoms' v w))
    (hn : c.within n n')
    (hforce : ∀ label i, c.Rel (Eval.force ev label i) (Eval.force ev' label i))
    (v w : Value V L) :
    c.Rel (Eval.equalsBy atoms ev n v w) (Eval.equalsBy atoms' ev' n' v w) := by
  induction n generalizing n' v w with
  | zero => exact c.exhausted (fun n => Eval.equalsBy atoms' ev' n v w) rfl hn
  | succ n ih =>
    obtain ⟨n', rfl, hn'⟩ := c.pred hn
    cases v with
    | pair h t =>
      cases w with
      | pair h' t' =>
        rw [Eval.equalsBy, Eval.equalsBy]
        split
        · exact c.pure true
        · refine c.bind (hforce _ h) (fun a => c.bind (hforce _ h') (fun b => ?_))
          refine c.bind (ih hn' a b) (fun same => ?_)
          split
          · exact c.bind (forceTail hn' hforce t) (fun a =>
              c.bind (forceTail hn' hforce t') (fun b => ih hn' a b))
          · exact c.pure false
      | _ => exact hatoms _ _
    | _ => cases w <;> exact hatoms _ _

theorem equals (hn : c.within n n')
    (hforce : ∀ label i, c.Rel (Eval.force ev label i) (Eval.force ev' label i))
    (v w : Value V L) : c.Rel (Eval.equals ev n v w) (Eval.equals ev' n' v w) :=
  equalsBy (fun _ _ => c.pure _) hn hforce v w

/-! ## Operators -/

theorem unary (hn : c.within n n') (op : UnaryOp) (v : Value V L) :
    c.Rel (Eval.unary n op v) (Eval.unary n' op v) := by
  unfold Eval.unary
  split
  · exact c.bind (ofExcept _) (fun _ => c.pure _)
  · exact c.pure _
  · exact c.cell _ (fun v => c.pure v)
  · exact c.newRef v
  · exact mismatch hn _ _

theorem arithmetic (hn : c.within n n') (op : BinaryOp) (v w : Value V L) :
    c.Rel (Eval.arithmetic n op v w) (Eval.arithmetic n' op v w) := by
  unfold Eval.arithmetic
  split
  · refine c.bind (ofExcept _) (fun r => ?_)
    cases r <;> exact c.pure _
  · exact mismatch hn _ _
  · exact mismatch hn _ _

section

variable (h : c.Parts n n' ev ev' m m') (env : Env)

include h

theorem logical (op : BinaryOp) (decisive : Bool) (l r : Expr V L) :
    c.Rel (Eval.logical n ev m env op decisive l r)
      (Eval.logical n' ev' m' env op decisive l r) := by
  refine c.bind (h.eval env l) (fun v => ?_)
  split
  · split
    · exact c.pure _
    · refine c.bind (h.eval env r) (fun w => ?_)
      split
      · exact c.pure _
      · exact mismatch h.within _ _
  · exact mismatch h.within _ _

theorem assign (l r : Expr V L) :
    c.Rel (Eval.assign n ev m env l r) (Eval.assign n' ev' m' env l r) := by
  refine c.bind (h.eval env l) (fun v => ?_)
  split
  · exact c.bind (h.eval env r) (fun w => c.bind (c.setCell _ w) (fun _ => c.pure _))
  · exact mismatch h.within _ _

/-! ## Application -/

omit h env in
theorem select (hn : c.within n n') (p : Prim) {part : Nat → Nat → M (Value V L)}
    {part' : Nat → Nat → M' (Value V L)} (hpart : ∀ h t, c.Rel (part h t) (part' h t))
    (v : Value V L) :
    c.Rel (Eval.select n p part v) (Eval.select n' p part' v) := by
  unfold Eval.select
  split
  · exact hpart _ _
  · exact c.throw _
  · exact c.bind (c.shown _ hn) (fun _ => c.throw _)

omit env in
theorem primitive (p : Prim) (v : Value V L) :
    c.Rel (Eval.primitive n ev p v) (Eval.primitive n' ev' p v) := by
  cases p with
  | arity =>
    unfold Eval.primitive
    dsimp only
    split
    · exact c.pure _
    · exact c.pure _
    · exact mismatch h.within _ _
  | first => exact select h.within _ (fun head _ => h.force _ head) v
  | rest => exact select h.within _ (fun _ tail => forceTail h.within h.force tail) v
  | cons => exact mismatch h.within _ _
  | _ => exact c.pure _

theorem applyPrim (p : Prim) (args : List (Expr V L)) :
    c.Rel (Eval.applyPrim n ev m env p args) (Eval.applyPrim n' ev' m' env p args) := by
  unfold Eval.applyPrim
  split
  · exact h.cons env _ _
  · exact c.throw _
  · exact c.bind (h.eval env _) (fun v => primitive h _ v)
  · exact c.throw _

/-! ## Expressions -/

theorem sequence (v : Value V L) (es : List (Expr V L)) :
    c.Rel (Eval.sequence ev m env v es) (Eval.sequence ev' m' env v es) := by
  induction es generalizing v with
  | nil => exact c.pure v
  | cons e es ih => exact c.bind (h.eval env e) (fun w => ih w)

variable [Variable V]

/-- One level of the recursion, with any way to compare and to call that respects the relation. -/
theorem Parts.stepBy {cmp : Value V L → Value V L → M Bool}
    {cmp' : Value V L → Value V L → M' Bool} {call : Env → Expr V L → M (Value V L)}
    {call' : Env → Expr V L → M' (Value V L)}
    (hcmp : ∀ v w, c.Rel (cmp v w) (cmp' v w)) (hcall : ∀ env e, c.Rel (call env e) (call' env e))
    (e : Expr V L) :
    c.Rel (Eval.stepBy cmp call n ev m env e) (Eval.stepBy cmp' call' n' ev' m' env e) := by
  -- all operators but three evaluate both operands before they do anything else
  have hboth : ∀ l r {f : Value V L → Value V L → M (Value V L)}
      {g : Value V L → Value V L → M' (Value V L)},
      (∀ v w, c.Rel (f v w) (g v w)) →
      c.Rel (do f (← ev m env l) (← ev m env r)) (do g (← ev' m' env l) (← ev' m' env r)) :=
    fun l r _ _ hfg => c.bind (h.eval env l) (fun v => c.bind (h.eval env r) (fun w => hfg v w))
  cases e with
  | var sp x =>
    simp only [Eval.stepBy]
    split
    · exact h.force _ _
    · exact c.throw _
  | unary sp op e => exact c.bind (h.eval env e) (fun v => unary h.within op v)
  | binary sp op l r =>
    cases op with
    | and => exact logical h env .and false l r
    | or => exact logical h env .or true l r
    | assign => exact assign h env l r
    | eq | ne => exact hboth l r (fun v w => c.bind (hcmp v w) (fun _ => c.pure _))
    | _ => exact hboth l r (fun v w => arithmetic h.within _ v w)
  | app sp f args =>
    refine c.bind (h.eval env f) (fun v => ?_)
    split
    · unfold Eval.applyClosureBy
      split
      · exact c.throw _
      · exact h.frame (fun _ => env) _ _ (fun frame => hcall _ _)
    · exact applyPrim h env _ args
    · exact c.bind (c.shown _ h.within) (fun _ => c.throw _)
  | map sp params layout body => exact c.newClosure _
  | cond sp t a b =>
    simp only [Eval.stepBy]
    refine c.bind (h.eval env t) (fun v => ?_)
    split
    · exact h.eval env a
    · exact h.eval env b
    · exact mismatch h.within _ _
  | letIn sp kind defs layout body =>
    exact h.frame (fun frame => kind.scope frame env) _ _ (fun frame => h.eval _ body)
  | block sp es => exact sequence h env _ es
  | _ => exact c.pure _

/-- One level of the recursion of the evaluator. -/
theorem Parts.step
    (hcall : ∀ env e, c.Rel (Eval.nested m (ev m env e)) (Eval.nested m' (ev' m' env e)))
    (e : Expr V L) : c.Rel (Eval.step n ev m env e) (Eval.step n' ev' m' env e) :=
  h.stepBy env (equals h.within h.force) hcall e

end

/-- Rendering reads slots and nothing else. -/
theorem renderBy {ev : Nat → Evaluator V L M} {ev' : Nat → Evaluator V L M'}
    (hforce : ∀ {n n'}, c.within n n' → ∀ label i,
      c.Rel (Eval.force (ev n) label i) (Eval.force (ev' n') label i))
    (hn : c.within n n') :
    (∀ v, c.Rel (Value.renderBy ev n v) (Value.renderBy ev' n' v)) ∧
      ∀ h t, c.Rel (Value.renderItemsBy ev n h t) (Value.renderItemsBy ev' n' h t) := by
  induction n generalizing n' with
  | zero =>
    exact ⟨fun v => c.exhausted (fun n => v.renderBy ev' n) rfl hn,
      fun h t => c.exhausted (fun n => Value.renderItemsBy ev' n h t) rfl hn⟩
  | succ n ih =>
    obtain ⟨n', rfl, hn'⟩ := c.pred hn
    obtain ⟨ihv, ihi⟩ := ih hn'
    refine ⟨fun v => ?_, fun h t => ?_⟩
    · cases v with
      | ref i =>
        exact c.cell i (fun v => c.bind (ihv v) (fun t => c.pure ("(ref " ++ t ++ ")")))
      | pair h t => exact c.bind (ihi h t) (fun _ => c.pure _)
      | _ => exact c.pure _
    · rw [Value.renderItemsBy, Value.renderItemsBy]
      refine c.bind (hforce hn' _ h) (fun v => c.bind (ihv v) (fun head =>
        c.bind (forceTail hn' (hforce hn') t) (fun w => ?_)))
      split
      · exact c.bind (ihi _ _) (fun _ => c.pure _)
      · exact c.pure head

theorem render [Variable V]
    (hforce : ∀ {n n'}, c.within n n' → ∀ label i,
      c.Rel (Eval.force (Machine.eval n) label i) (Eval.force (Machine.eval n') label i))
    (hn : c.within n n') :
    (∀ v : Value V L, c.Rel (v.render n) (v.render n')) ∧
      ∀ h t, c.Rel (Value.renderItems n h t) (Value.renderItems n' h t) :=
  renderBy hforce hn

end Congruence

/-- The predecessors of equal numbers are equal. -/
theorem Congruence.pred_eq {n n' : Nat} (h : n + 1 = n') : ∃ k, n' = k + 1 ∧ n = k :=
  ⟨n, h.symm, rfl⟩

/-! ## What becomes of the store -/

/-- A relation between the store before and after that does not look at references and closures, and
that holds of two things done one after the other if it holds of both. -/
class Course (R : Store V L → Store V L → Prop) : Prop where
  same : ∀ {s s' : Store V L}, s'.slots = s.slots → s'.depths = s.depths → R s s'
  trans : ∀ {s s1 s' : Store V L}, R s s1 → R s1 s' → R s s'

/-- However the computation ends from the store `s`, the store it leaves is related to `s`. -/
def LeavesFrom {α : Type} (R : Store V L → Store V L → Prop) (s : Store V L) (x : Eval V L α) :
    Prop :=
  ∀ r s', outcome x s = some (r, s') → R s s'

/-- However the computation ends, the store it leaves is related to the one it started from. -/
abbrev Leaves {α : Type} (R : Store V L → Store V L → Prop) (x : Eval V L α) : Prop :=
  ∀ s, LeavesFrom R s x

section

variable {R : Store V L → Store V L → Prop} [Course R] {α β : Type} {s : Store V L}
  {x : Eval V L α} {f : α → Eval V L β}

theorem LeavesFrom.bind (hx : LeavesFrom R s x)
    (hf : ∀ a s1, outcome x s = some (.ok a, s1) → LeavesFrom R s1 (f a)) :
    LeavesFrom R s (x >>= f) := by
  intro r s' ho
  rcases h : outcome x s with _ | ⟨e | a, s1⟩
  · rw [outcome_bind, h] at ho
    cases ho
  · rw [outcome_bind_of_error _ h] at ho
    cases ho
    exact hx _ _ h
  · rw [outcome_bind_of_ok _ h] at ho
    exact Course.trans (hx _ _ h) (hf a s1 h r s' ho)

namespace Leaves

theorem bind (hx : Leaves R x) (hf : ∀ a, Leaves R (f a)) : Leaves R (x >>= f) :=
  fun s => (hx s).bind (fun a s1 _ => hf a s1)

omit [Course R] in
theorem modifyGet {f : Store V L → α × Store V L} (hf : ∀ s, R s (f s).2) :
    Leaves R (modifyGet f : Eval V L α) := by
  rintro s _ _ ⟨⟩
  exact hf s

theorem pure (a : α) : Leaves R (pure a : Eval V L α) := by
  rintro s _ _ ⟨⟩
  exact Course.same rfl rfl

theorem throw (e : EvalError) : Leaves R (throw e : Eval V L α) := by
  rintro s _ _ ⟨⟩
  exact Course.same rfl rfl

omit [Course R] in
theorem exhausted : Leaves R (EvalOps.exhausted : Eval V L α) := by
  rintro s _ _ ⟨⟩

theorem get : Leaves R (get : Eval V L (Store V L)) :=
  modifyGet (fun _ => Course.same rfl rfl)

theorem shown (n : Nat) (v : Value V L) : Leaves R (Eval.shown n v) := by
  refine bind get (fun s => ?_)
  split
  · exact pure _
  · exact exhausted

def congruence (R : Store V L → Store V L → Prop) [Course R] : Congruence V L where
  Rel x _ := Leaves R x
  within := Eq
  pure := pure
  throw := throw
  bind := bind
  exhausted _ _ _ := exhausted
  pred := Congruence.pred_eq
  shown v _ := shown _ v
  cell _ _ _ _ hf := bind get (fun _ => hf _)
  newRef _ := modifyGet (fun _ => Course.same rfl rfl)
  setCell _ _ := modifyGet (fun _ => Course.same rfl rfl)
  newClosure _ := modifyGet (fun _ => Course.same rfl rfl)

end Leaves

end

end Mapling
