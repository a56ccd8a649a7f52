import Mapling.Proofs.Eval.Congruence
import Mapling.Proofs.Value.Alike

/-! # More fuel keeps an outcome

Whatever the evaluator gives for one number it gives for every larger one, so what a program gives
for some number is its outcome (`ends_evaluate`). Giving no less is a relation that evaluation
respects: each operation gives at least as much when the evaluator it calls does. -/

namespace Mapling

namespace Value

variable {V L : Type}

/-- A text that fits within a bound is the same within a larger one. -/
theorem text_mono (s : Store V L) {n n' : Nat} (h : n ≤ n') :
    (∀ v t, text s n v = some t → text s n' v = some t) ∧
      ∀ i k t, itemsText s n i k = some t → itemsText s n' i k = some t := by
  induction n generalizing n' with
  | zero =>
    refine ⟨fun v t hv => ?_, fun i k t hi => ?_⟩
    · rw [text] at hv
      cases hv
    · rw [itemsText] at hi
      cases hi
  | succ n ih =>
    obtain ⟨n', rfl⟩ : ∃ m, n' = m + 1 := ⟨n' - 1, by omega⟩
    obtain ⟨ihv, ihi⟩ := ih (Nat.le_of_succ_le_succ h)
    refine ⟨fun v t hv => ?_, fun i k t hi => ?_⟩
    · cases v with
      | ref i =>
        rw [text] at hv ⊢
        obtain ⟨t', ht', hv⟩ := Option.bind_eq_some_iff.mp hv
        rw [ihv _ _ ht']
        exact hv
      | pair i k =>
        rw [text] at hv ⊢
        obtain ⟨t', ht', hv⟩ := Option.bind_eq_some_iff.mp hv
        rw [ihi _ _ _ ht']
        exact hv
      | _ => exact hv
    · rw [itemsText_succ] at hi ⊢
      obtain ⟨head, hhead, hi⟩ := Option.bind_eq_some_iff.mp hi
      refine Option.bind_eq_some_iff.mpr ⟨head, ?_, ?_⟩
      · unfold partText at hhead ⊢
        split at hhead
        · exact ihv _ _ hhead
        · exact hhead
      · split at hi
        · obtain ⟨rest, hrest, rfl⟩ := Option.map_eq_some_iff.mp hi
          exact Option.map_eq_some_iff.mpr ⟨rest, ihi _ _ _ hrest, rfl⟩
        · exact hi
        · obtain ⟨rest, hrest, rfl⟩ := Option.map_eq_some_iff.mp hi
          exact Option.map_eq_some_iff.mpr ⟨rest, ihv _ _ hrest, rfl⟩
        · exact hi

end Value

/-! ## The operations of the evaluator -/

section

variable {V L α : Type} {ev ev' : Evaluator V L} {n n' : Nat}

/-- Whatever the first evaluator gives, the second one gives as well. -/
def EvaluatorsBelow (ev ev' : Evaluator V L) : Prop :=
  ∀ m env e, Below (ev m env e) (ev' m env e)

namespace Below

theorem exhausted (x : Eval V L α) : Below EvalOps.exhausted x :=
  of_none Eval.outcome_exhausted x

theorem andThen {x y : Eval V L α} (h : Below x y)
    (change : Except EvalError α → Store V L → Store V L) :
    Below (EvalOps.andThen x change) (EvalOps.andThen y change) := by
  intro s o ho
  rw [Eval.outcome_andThen] at ho ⊢
  obtain ⟨r, hr, rfl⟩ := Option.map_eq_some_iff.mp ho
  rw [h s r hr]
  rfl

theorem shown (hn : n ≤ n') (v : Value V L) : Below (Eval.shown n v) (Eval.shown n' v) := by
  intro s o ho
  rw [Eval.outcome_shown] at ho ⊢
  obtain ⟨t, ht, rfl⟩ := Option.map_eq_some_iff.mp ho
  rw [(Value.text_mono s hn).1 v t ht]
  rfl

theorem nested (m : Machine) {x y : Eval V L α} (h : Below x y) :
    Below (Eval.nested m x) (Eval.nested m y) :=
  bind (refl _) (fun _ => andThen h _)

section

variable (hev : EvaluatorsBelow ev ev')
include hev

theorem force (label : String) (i : Nat) :
    Below (Eval.force ev label i) (Eval.force ev' label i) := by
  have hresume : ∀ s, Below (Eval.resume ev s) (Eval.resume ev' s) :=
    fun s => nested _ (hev _ _ _)
  refine bind (refl _) (fun s => ?_)
  cases s.slot i with
  | byName x => exact hresume x
  | byNeed x => exact bind (refl _) (fun _ => andThen (hresume x) _)
  | _ => exact refl _

theorem defer (m : Machine) (env : Env) (policy : Policy) (e : Expr V L) :
    Below (Eval.defer ev m env policy e) (Eval.defer ev' m env policy e) := by
  have hnow : Below (do return Slot.ready (← ev m env e)) (do return Slot.ready (← ev' m env e)) :=
    bind (hev m env e) (fun _ => refl _)
  unfold Eval.defer
  split
  · exact hnow
  · cases policy with
    | value => exact hnow
    | _ => exact refl _

theorem bindEach (m : Machine) (env : Env) (bs : List Binding) (es : List (Expr V L)) :
    Below (Eval.bindEach ev m env bs es) (Eval.bindEach ev' m env bs es) := by
  induction bs generalizing es with
  | nil =>
    cases es <;> exact refl _
  | cons b bs ih =>
    cases es with
    | nil => exact refl _
    | cons e es => exact bind (defer hev m env _ e) (fun _ => bind (refl _) (fun _ => ih es))

theorem cons (hn : n ≤ n') (m : Machine) (env : Env) (h t : Expr V L) :
    Below (Eval.cons n ev m env h t) (Eval.cons n' ev' m env h t) := by
  refine bind (defer hev m env _ h) (fun x => bind (defer hev m env _ t) (fun y => ?_))
  split
  · split
    · exact refl _
    · exact bind (shown hn _) (fun _ => refl _)
  · exact refl _

/-- Evaluation respects that one computation gives no less than another. -/
def congruence (V L : Type) : Congruence V L where
  Rel := Below
  within := (· ≤ ·)
  pure _ := refl _
  throw _ := refl _
  bind := bind
  exhausted _ _ _ := exhausted _
  pred h := ⟨_, (Nat.succ_pred_eq_of_pos (Nat.zero_lt_of_lt h)).symm, Nat.le_pred_of_lt h⟩
  shown v hn := shown hn v
  cell _ _ _ _ hf := bind (refl _) (fun _ => hf _)
  newRef _ := refl _
  setCell _ _ := refl _
  newClosure _ := refl _

theorem parts (hn : n ≤ n') (m : Machine) : (congruence V L).Parts n n' ev ev' m m where
  within := hn
  eval := hev m
  force := force hev
  cons := cons hev hn m
  frame scope _ es _ _ hfg := bind (refl _) (fun frame =>
    bind (bindEach hev m (scope frame) frame es) (fun _ => hfg frame))

end

theorem equals (hev : EvaluatorsBelow ev ev') (hn : n ≤ n') (v w : Value V L) :
    Below (Eval.equals ev n v w) (Eval.equals ev' n' v w) :=
  Congruence.equals (c := congruence V L) hn (force hev) v w

/-- More levels of a recursion give no less, if one level on top of another does. -/
theorem levels {f g : Nat → Evaluator V L} (hzero : ∀ m env e, f 0 m env e = EvalOps.exhausted)
    (hsucc : ∀ {n n'}, n ≤ n' → EvaluatorsBelow (f n) (g n') →
      EvaluatorsBelow (f (n + 1)) (g (n' + 1))) (hn : n ≤ n') : EvaluatorsBelow (f n) (g n') := by
  induction n generalizing n' with
  | zero =>
    intro m env e
    rw [hzero]
    exact exhausted _
  | succ n ih =>
    obtain ⟨n', rfl⟩ : ∃ k, n' = k + 1 := ⟨n' - 1, by omega⟩
    have hn' : n ≤ n' := Nat.le_of_succ_le_succ hn
    exact hsucc hn' (ih hn')

/-- More fuel keeps the outcome of an evaluation. -/
theorem eval [Variable V] (hn : n ≤ n') :
    EvaluatorsBelow (Machine.eval n : Evaluator V L) (Machine.eval n') :=
  levels (fun _ _ _ => rfl) (fun hn hev m env e =>
    (parts hev hn m).step env (fun _ _ => nested m (hev m _ _)) e) hn

end Below

end

/-- What a program gives for some number is its outcome. -/
theorem ends_evaluate {V L : Type} [Variable V] {n : Nat} {config : Config} {e : Expr V L}
    {o : Except EvalError (Value V L) × Store V L} (h : evaluate n config e = some o) :
    Ends (fun n => evaluate n config e) o :=
  ⟨n, fun _ hn => Below.eval hn _ _ e _ o h⟩

/-- What rendering gives for some number it gives for every larger one. -/
theorem Below.render {V L : Type} [Variable V] {n n' : Nat} (hn : n ≤ n') (v : Value V L) :
    Below (v.render n) (v.render n') :=
  (Congruence.render (c := congruence V L) (fun hn => force (eval hn)) hn).1 v

end Mapling
