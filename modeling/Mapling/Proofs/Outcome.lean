import Mapling.Eval
import Mathlib.Tactic

/-! # Outcomes of computations

Evaluation, running in an arena and decoding are all computations of one kind: from a state they
give a result or an error together with the state afterwards, or they give nothing because the
number that bounds their recursion is used up. `outcome x s` is what the computation `x` gives
from the state `s`. The equations below open a computation one step at a time, so that later
proofs never look inside the monads it is written in.

The number decides whether there is an outcome, and never which one. So "the outcome" makes sense
without a number: it is what the computation gives for every number that is large enough
(`Ends`). -/

namespace Mapling

variable {ε σ α β : Type} {a : α} {s' s1 : σ} {f : α → ExceptT ε (StateT σ Option) β} {e : ε}
  {y : ExceptT ε (StateT σ Option) α} {R : β → σ → Prop}

/-- What a computation gives from a state. -/
def outcome (x : ExceptT ε (StateT σ Option) α) (s : σ) : Option (Except ε α × σ) := x.run.run s

@[simp] theorem outcome_pure (a : α) (s : σ) :
    outcome (pure a : ExceptT ε (StateT σ Option) α) s = some (.ok a, s) := rfl

@[simp] theorem outcome_throw (e : ε) (s : σ) :
    outcome (throw e : ExceptT ε (StateT σ Option) α) s = some (.error e, s) := rfl

@[simp] theorem outcome_get (s : σ) :
    outcome (get : ExceptT ε (StateT σ Option) σ) s = some (.ok s, s) := rfl

@[simp] theorem outcome_modify (f : σ → σ) (s : σ) :
    outcome (modify f : ExceptT ε (StateT σ Option) PUnit) s = some (.ok ⟨⟩, f s) := rfl

@[simp] theorem outcome_modifyGet (f : σ → α × σ) (s : σ) :
    outcome (modifyGet f : ExceptT ε (StateT σ Option) α) s = some (.ok (f s).1, (f s).2) := rfl

variable {x : ExceptT ε (StateT σ Option) α} {s : σ} {ρ : Type} {o : ρ}

theorem outcome_modifyGet_ok {f : σ → α × σ}
    (h : outcome (modifyGet f : ExceptT ε (StateT σ Option) α) s = some (.ok a, s')) :
    a = (f s).1 ∧ s' = (f s).2 := by
  rw [outcome_modifyGet] at h
  cases h
  exact ⟨rfl, rfl⟩

theorem outcome_bind (x : ExceptT ε (StateT σ Option) α)
    (f : α → ExceptT ε (StateT σ Option) β) (s : σ) :
    outcome (x >>= f) s = match outcome x s with
      | none => none
      | some (.error e, s') => some (.error e, s')
      | some (.ok a, s') => outcome (f a) s' := by
  simp only [outcome, ExceptT.run_bind, StateT.run_bind]
  rcases x.run.run s with _ | ⟨_ | _, _⟩ <;> rfl

/-- A sequence succeeds when both parts do. -/
theorem outcome_bind_ok {b : β} :
    outcome (x >>= f) s = some (.ok b, s') ↔
      ∃ a s1, outcome x s = some (.ok a, s1) ∧ outcome (f a) s1 = some (.ok b, s') := by
  rw [outcome_bind]
  rcases outcome x s with _ | ⟨e | a, s1⟩
  · simp
  · simp
  · constructor
    · intro h
      exact ⟨a, s1, rfl, h⟩
    · rintro ⟨a', s1', h, hb⟩
      cases h
      exact hb

/-- After a part that succeeds, a sequence does what comes next. -/
theorem outcome_bind_of_ok (f : α → ExceptT ε (StateT σ Option) β)
    (h : outcome x s = some (.ok a, s1)) : outcome (x >>= f) s = outcome (f a) s1 := by
  rw [outcome_bind, h]

/-- After a part that fails, a sequence fails. -/
theorem outcome_bind_of_error (f : α → ExceptT ε (StateT σ Option) β)
    (h : outcome x s = some (.error e, s1)) : outcome (x >>= f) s = some (.error e, s1) := by
  rw [outcome_bind, h]

/-! ## Numbers that are large enough -/

/-- A family of computations ends in `o`: it gives `o` for every number that is large enough. -/
def Ends {ρ : Type} (x : Nat → Option ρ) (o : ρ) : Prop := ∃ N, ∀ n, N ≤ n → x n = some o

theorem Ends.unique {x : Nat → Option ρ} {o' : ρ} (h : Ends x o) (h' : Ends x o') : o = o' := by
  obtain ⟨N, hN⟩ := h
  obtain ⟨N', hN'⟩ := h'
  have hsame : some o = some o' := by
    rw [← hN (max N N') (by omega), hN' (max N N') (by omega)]
  exact Option.some.inj hsame

/-- One level of the recursion more. -/
theorem Ends.succ {x : Nat → Option ρ} (h : Ends (fun n => x (n + 1)) o) : Ends x o := by
  obtain ⟨N, hN⟩ := h
  refine ⟨N + 1, fun n hn => ?_⟩
  obtain ⟨n, rfl⟩ : ∃ k, n = k + 1 := ⟨n - 1, by omega⟩
  exact hN n (by omega)

/-- One level of the recursion less. -/
theorem Ends.shift {x : Nat → Option ρ} (h : Ends x o) : Ends (fun n => x (n + 1)) o := by
  obtain ⟨N, hN⟩ := h
  exact ⟨N, fun n hn => hN (n + 1) (by omega)⟩

/-- Whatever `x` gives, `y` gives as well. -/
def Below (x y : ExceptT ε (StateT σ Option) α) : Prop :=
  ∀ s o, outcome x s = some o → outcome y s = some o

namespace Below

theorem refl (x : ExceptT ε (StateT σ Option) α) : Below x x := fun _ _ h => h

/-- A computation without outcomes is below every other. -/
theorem of_none (h : ∀ s, outcome x s = none) (y : ExceptT ε (StateT σ Option) α) : Below x y := by
  intro s o ho
  rw [h s] at ho
  cases ho

/-- Giving no more is kept by doing one thing after the other. -/
theorem bind {g : α → ExceptT ε (StateT σ Option) β} (hx : Below x y)
    (hf : ∀ a, Below (f a) (g a)) :
    Below (x >>= f) (y >>= g) := by
  intro s o h
  rw [outcome_bind] at h
  rcases hr : outcome x s with _ | ⟨e | a, s1⟩
  · rw [hr] at h
    cases h
  · rw [hr] at h
    rw [outcome_bind_of_error _ (hx s _ hr)]
    exact h
  · rw [hr] at h
    rw [outcome_bind_of_ok _ (hx s _ hr)]
    exact hf a s1 o h

end Below

/-! ## Computations that succeed -/

/-- From the state `s` the computations succeed, all with the same result for every number that
is large enough, and `Q` holds of the result and the state afterwards. -/
def Yields (x : Nat → ExceptT ε (StateT σ Option) α) (s : σ) (Q : α → σ → Prop) : Prop :=
  ∃ a s', Ends (fun n => outcome (x n) s) (.ok a, s') ∧ Q a s'

namespace Yields

variable {x : Nat → ExceptT ε (StateT σ Option) α} {s : σ} {Q : α → σ → Prop}

theorem of_outcome (a : α) (t : σ) (h : ∀ n, outcome (x n) s = some (.ok a, t)) (hQ : Q a t) :
    Yields x s Q :=
  ⟨a, t, ⟨0, fun n _ => h n⟩, hQ⟩

theorem mono {Q' : α → σ → Prop} (h : Yields x s Q) (hQ : ∀ a s', Q a s' → Q' a s') :
    Yields x s Q' := by
  obtain ⟨a, s', hends, ha⟩ := h
  exact ⟨a, s', hends, hQ a s' ha⟩

/-- One level of the recursion. -/
theorem succ (h : Yields (fun n => x (n + 1)) s Q) : Yields x s Q := by
  obtain ⟨a, s', hends, hQ⟩ := h
  exact ⟨a, s', hends.succ, hQ⟩

theorem bind {f : Nat → α → ExceptT ε (StateT σ Option) β} {Q' : β → σ → Prop}
    (h : Yields x s Q) (hf : ∀ a s', Q a s' → Yields (fun n => f n a) s' Q') :
    Yields (fun n => x n >>= f n) s Q' := by
  obtain ⟨a, s1, ⟨N, hN⟩, hQ⟩ := h
  obtain ⟨b, s', ⟨N', hN'⟩, hQ'⟩ := hf a s1 hQ
  refine ⟨b, s', ⟨max N N', fun n hn => ?_⟩, hQ'⟩
  have h1 := hN n (by omega)
  have h2 := hN' n (by omega)
  dsimp only at h1 h2 ⊢
  rw [outcome_bind_of_ok _ h1, h2]

/-- After a step that does not depend on the number. -/
theorem step (a : α) (t : σ) {f : Nat → α → ExceptT ε (StateT σ Option) β} {Q' : β → σ → Prop}
    (h : outcome y s = some (.ok a, t)) (hf : Yields (fun n => f n a) t Q') :
    Yields (fun n => y >>= f n) s Q' := by
  refine bind (of_outcome (Q := fun b t' => b = a ∧ t' = t) a t (fun _ => h) ⟨rfl, rfl⟩) ?_
  rintro _ _ ⟨rfl, rfl⟩
  exact hf

end Yields

/-! ## Whatever comes of a computation -/

/-- If the computation has an outcome from the state `s`, then `Q` holds of its result or `E` of
its error, with the state afterwards. -/
def Ensures (x : ExceptT ε (StateT σ Option) α) (s : σ) (Q : α → σ → Prop) (E : ε → σ → Prop) :
    Prop :=
  ∀ o s', outcome x s = some (o, s') → match o with
    | .ok a => Q a s'
    | .error e => E e s'

namespace Ensures

variable {x : ExceptT ε (StateT σ Option) α} {s : σ} {Q Q' : α → σ → Prop} {E E' : ε → σ → Prop}

theorem pure (h : Q a s) : Ensures (pure a) s Q E := by
  rintro o s' ho
  cases ho
  exact h

theorem throw (h : E e s) : Ensures (throw e) s Q E := by
  rintro o s' ho
  cases ho
  exact h

/-- A computation without outcomes ensures anything. -/
theorem of_none (h : outcome x s = none) : Ensures x s Q E := by
  intro o s' ho
  rw [h] at ho
  cases ho

theorem mono (h : Ensures x s Q E) (hQ : ∀ a s', Q a s' → Q' a s')
    (hE : ∀ e s', E e s' → E' e s') : Ensures x s Q' E' := by
  intro o s' ho
  cases o with
  | ok a => exact hQ a s' (h _ _ ho)
  | error e => exact hE e s' (h _ _ ho)

theorem bind (h : Ensures x s Q E) (hf : ∀ a s', Q a s' → Ensures (f a) s' R E) :
    Ensures (x >>= f) s R E := by
  intro o s' ho
  rcases hx : outcome x s with _ | ⟨e | a, s1⟩
  · rw [outcome_bind, hx] at ho
    cases ho
  · rw [outcome_bind_of_error _ hx] at ho
    cases ho
    exact h _ _ hx
  · rw [outcome_bind_of_ok _ hx] at ho
    exact hf a s1 (h _ _ hx) o s' ho

/-- After a step that succeeds. -/
theorem step {t : σ} (hx : outcome x s = some (.ok a, t)) (hf : Ensures (f a) t R E) :
    Ensures (x >>= f) s R E := by
  intro o s' ho
  rw [outcome_bind_of_ok _ hx] at ho
  exact hf o s' ho

end Ensures

/-! ## Operations of the evaluator -/

namespace Eval

variable {V L : Type}

@[simp] theorem outcome_exhausted (s : Store V L) :
    outcome (EvalOps.exhausted : Eval V L α) s = none := rfl

@[simp] theorem outcome_put (i : Nat) (x : Slot V L) (s : Store V L) :
    outcome (EvalOps.put i x : Eval V L Unit) s = some (.ok (), s.setSlot i x) := rfl

theorem outcome_andThen (act : Eval V L α)
    (change : Except EvalError α → Store V L → Store V L) (s : Store V L) :
    outcome (EvalOps.andThen act change) s =
      (outcome act s).map (fun r => (r.1, change r.1 r.2)) := by
  simp only [outcome, EvalOps.andThen, andThen, ExceptT.run_mk, StateT.run_bind]
  rcases act.run.run s with _ | ⟨_, _⟩ <;> rfl

theorem outcome_settle (i : Nat) (state : Except EvalError (Value V L) → Slot V L)
    (act : Eval V L (Value V L)) (s : Store V L) :
    outcome (EvalOps.give i (EvalOps.settle i state act)) s =
      (outcome act s).map (fun r => (r.1, r.2.setSlot i (state r.1))) :=
  outcome_andThen act _ s

theorem outcome_shown (n : Nat) (v : Value V L) (s : Store V L) :
    outcome (shown n v) s = (v.text s n).map (fun t => (.ok t, s)) := by
  rw [shown, outcome_bind_of_ok _ (outcome_get s)]
  cases v.text s n <;> rfl

end Eval

/-- The environment that the definitions of a `let` are evaluated in. -/
def LetKind.scope (kind : LetKind) (frame : Frame) (env : Env) : Env :=
  match kind with
  | .plain => env
  | .recursive => frame :: env

/-- Evaluating a closed program is evaluating it in no environment, with the first machine of an
empty store. -/
theorem evaluate_eq_outcome {V L : Type} [Variable V] (n : Nat) (config : Config)
    (e : Expr V L) : evaluate n config e =
      outcome (Machine.eval n ⟨config, 0⟩ [] e) (Store.empty.newMachine config).2 := rfl

end Mapling
