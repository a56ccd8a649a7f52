import Mapling.Proofs.Eval.Comparing
import Mapling.Proofs.Eval.Eager

/-! # Evaluation without a depth limit

How deep the calls of a run nest is counted for one purpose only, to stop a run that nests too
deep. `Machine.evalFreely` is the evaluator without the count. Under the eager policies a run does
what the free run does, or else it fails because the limit is exceeded; and since the number that
bounds the recursion bounds the nesting as well, it exceeds only a limit that is smaller than that
number (`WithinLimit`). So a program gives a value for some limit exactly if its free run gives
that value, and a proof about all limits at once can be a proof about free runs. -/

namespace Mapling

variable {V L : Type}

/-! ## The evaluator that does not count -/

section

variable [Variable V]

def Eval.callFreely (ev : Evaluator V L) (m : Machine) (env : Env) (f : Expr V L)
    (c : Closure V L) (args : List (Expr V L)) : Eval V L (Value V L) :=
  applyClosureBy (ev m) ev m env f c args

/-- Evaluate an expression with a comparison of its own and without counting. -/
abbrev Eval.stepFreely (cmp : Comparison V L) (n : Nat) (ev : Evaluator V L) : Evaluator V L :=
  fun m => stepBy (cmp n ev) (ev m) n ev m

/-- Evaluate an expression in an environment, with a comparison of its own and without
counting. -/
def Machine.evalFreely (cmp : Comparison V L) :
    Nat → Machine → Env → Expr V L → Eval V L (Value V L)
  | 0, _, _, _ => EvalOps.exhausted
  | n + 1, m, env, e => Eval.stepFreely cmp n (evalFreely cmp n) m env e

/-- More fuel keeps the outcome of a free run. -/
theorem Below.evalFreely {cmp : Comparison V L}
    (hcmp : ∀ n n' ev ev' v w, n ≤ n' → EvaluatorsBelow ev ev' →
      Below (cmp n ev v w) (cmp n' ev' v w)) {n n' : Nat} (hn : n ≤ n') :
    EvaluatorsBelow (Machine.evalFreely cmp n) (Machine.evalFreely cmp n') :=
  levels (fun _ _ _ => rfl) (fun hn hev m env e =>
    (parts hev hn m).stepBy env (fun v w => hcmp _ _ _ _ v w hn hev) (hev m) e) hn

end

/-! ## Runs within a limit -/

def Store.free (s : Store V L) : Store V L := { s with depths := #[] }

@[simp] theorem Store.slot_free (s : Store V L) (i : Nat) : s.free.slot i = s.slot i := rfl

@[simp] theorem Store.cell_free (s : Store V L) (i : Nat) : s.free.cell i = s.cell i := rfl

theorem Value.text_free (s : Store V L) (n : Nat) (v : Value V L) :
    v.text s.free n = v.text s n :=
  (text_eq_of_alike (Alike.of_eq (Store.slot_free s) (Store.cell_free s)) n).1 v v rfl

section

variable {α β : Type} {m : Machine} {n : Nat}

/-- From a store where nothing is put off, `x` does what `y` does without counters, and comes back
to the depth it started at; or it exceeds the limit, which is then less than `n` levels away. -/
def WithinLimit (m : Machine) (n : Nat) (x y : Eval V L α) : Prop :=
  ∀ s : Store V L, s.Eager → m.counter < s.depths.size →
    (outcome y s.free = (outcome x s).map (fun r => (r.1, r.2.free)) ∧
      ∀ a s', outcome x s = some (.ok a, s') →
        s'.Eager ∧ s'.depth m = s.depth m ∧ s'.depths.size = s.depths.size) ∨
    (m.config.maxDepth < s.depth m + n ∧
      ∃ s', outcome x s = some (.error (.depthExceeded m.config.maxDepth), s'))

namespace WithinLimit

variable {x y : Eval V L α}

theorem mono {n' : Nat} (h : WithinLimit m n x y) (hn : n ≤ n') : WithinLimit m n' x y := by
  intro s hs hm
  rcases h s hs hm with hsame | ⟨hlt, hexceeds⟩
  · exact .inl hsame
  · exact .inr ⟨by omega, hexceeds⟩

theorem pure (a : α) : WithinLimit m n (pure a : Eval V L α) (pure a) := by
  intro s hs _
  refine .inl ⟨rfl, fun b s' h => ?_⟩
  cases h
  exact ⟨hs, rfl, rfl⟩

theorem throw (e : EvalError) : WithinLimit m n (throw e : Eval V L α) (throw e) := by
  intro s _ _
  exact .inl ⟨rfl, fun b s' h => by cases h⟩

theorem exhausted : WithinLimit m n (EvalOps.exhausted : Eval V L α) EvalOps.exhausted := by
  intro s _ _
  exact .inl ⟨rfl, fun b s' h => by cases h⟩

/-- Staying within the limit is kept by doing one thing after the other. -/
theorem bind {f g : α → Eval V L β} (hx : WithinLimit m n x y)
    (hf : ∀ a, WithinLimit m n (f a) (g a)) : WithinLimit m n (x >>= f) (y >>= g) := by
  intro s hs hm
  rcases hx s hs hm with ⟨hsame, hafter⟩ | ⟨hlt, s', hexceeds⟩
  · rcases hr : outcome x s with _ | ⟨e | a, s1⟩
    · refine .inl ⟨?_, fun b s' h => ?_⟩
      · rw [outcome_bind, outcome_bind, hsame, hr]
        rfl
      · rw [outcome_bind, hr] at h
        cases h
    · refine .inl ⟨?_, fun b s' h => ?_⟩
      · rw [outcome_bind, outcome_bind, hsame, hr]
        rfl
      · rw [outcome_bind, hr] at h
        cases h
    · obtain ⟨hs1, hdepth, hsize⟩ := hafter a s1 hr
      have hx1 : outcome (x >>= f) s = outcome (f a) s1 := outcome_bind_of_ok f hr
      have hy1 : outcome (y >>= g) s.free = outcome (g a) s1.free := by
        rw [hr] at hsame
        exact outcome_bind_of_ok g hsame
      rcases hf a s1 hs1 (hsize ▸ hm) with ⟨hsame1, hafter1⟩ | ⟨hlt, hexceeds⟩
      · refine .inl ⟨by rw [hx1, hy1, hsame1], fun b s' h => ?_⟩
        rw [hx1] at h
        obtain ⟨hs', hdepth', hsize'⟩ := hafter1 b s' h
        exact ⟨hs', hdepth'.trans hdepth, hsize'.trans hsize⟩
      · exact .inr ⟨hdepth ▸ hlt, by rw [hx1]; exact hexceeds⟩
  · exact .inr ⟨hlt, s', outcome_bind_of_error f hexceeds⟩

/-- An operation on the store that has nothing to do with the counters. -/
theorem modifyGet {f : Store V L → α × Store V L}
    (hfree : ∀ s, f s.free = ((f s).1, (f s).2.free)) (hdepths : ∀ s, (f s).2.depths = s.depths)
    (heager : ∀ s, s.Eager → (f s).2.Eager) :
    WithinLimit m n (modifyGet f : Eval V L α) (modifyGet f) := by
  intro s hs _
  refine .inl ⟨?_, fun a s' h => ?_⟩
  · rw [outcome_modifyGet, outcome_modifyGet, hfree]
    rfl
  · obtain ⟨-, rfl⟩ := outcome_modifyGet_ok h
    exact ⟨heager s hs, by rw [Store.depth, hdepths, Store.depth], by rw [hdepths]⟩

theorem modify {f : Store V L → Store V L} (hfree : ∀ s, f s.free = (f s).free)
    (hdepths : ∀ s, (f s).depths = s.depths) (heager : ∀ s, s.Eager → (f s).Eager) :
    WithinLimit m n (modify f : Eval V L PUnit) (modify f) :=
  modifyGet (f := fun s => (PUnit.unit, f s)) (fun s => by rw [hfree]) hdepths heager

/-- One level deeper there is one level less to go. -/
theorem nested (h : WithinLimit m n x y) : WithinLimit m (n + 1) (Eval.nested m x) y := by
  intro s hs hm
  rw [Eval.nested, outcome_bind, Eval.enter, outcome_bind_of_ok _ (outcome_get s)]
  by_cases hd : s.depth m < m.config.maxDepth
  · have hsize : m.counter < (s.setDepth m (s.depth m + 1)).depths.size := by
      simpa [Store.setDepth] using hm
    have hdepth : (s.setDepth m (s.depth m + 1)).depth m = s.depth m + 1 := by
      simp [Store.setDepth, Store.depth, hm]
    simp only [hd, if_true, outcome_modify, Eval.outcome_andThen]
    rcases h (s.setDepth m (s.depth m + 1)) hs hsize with ⟨hsame, hafter⟩ | ⟨hlt, s', hexceeds⟩
    · refine .inl ⟨?_, fun a s' ho => ?_⟩
      · rw [show s.free = (s.setDepth m (s.depth m + 1)).free from rfl, hsame, Option.map_map]
        rfl
      · obtain ⟨⟨r, s1⟩, hr, hs1⟩ := Option.map_eq_some_iff.mp ho
        cases hs1
        obtain ⟨heager, hdepth1, hsize1⟩ := hafter a s1 hr
        refine ⟨heager, ?_, ?_⟩
        · have hm1 : m.counter < s1.depths.size := hsize1 ▸ hsize
          rw [hdepth1, hdepth]
          simp [Store.setDepth, Store.depth, hm1]
        · have : (s.setDepth m (s.depth m + 1)).depths.size = s.depths.size := by
            simp [Store.setDepth]
          rw [← this, ← hsize1]
          simp [Store.setDepth]
    · refine .inr ⟨by omega, s'.setDepth m (s'.depth m - 1), ?_⟩
      rw [hexceeds]
      rfl
  · simp only [hd, if_false, outcome_throw]
    exact .inr ⟨by omega, s, rfl⟩

theorem shown (k : Nat) (v : Value V L) :
    WithinLimit m n (Eval.shown k v) (Eval.shown k v) := by
  intro s hs _
  refine .inl ⟨?_, fun t s' h => ?_⟩
  · rw [Eval.outcome_shown, Eval.outcome_shown, Value.text_free, Option.map_map]
    rfl
  · rw [Eval.outcome_shown] at h
    obtain ⟨t', -, h⟩ := Option.map_eq_some_iff.mp h
    cases h
    exact ⟨hs, rfl, rfl⟩

/-! ## Slots, pairs and frames -/

variable {ev ev' : Evaluator V L} {m' : Machine}

theorem force (label : String) (i : Nat) :
    WithinLimit m n (Eval.force ev label i) (Eval.force ev' label i) := by
  intro s hs hm
  rw [Eval.force, Eval.force, outcome_bind_of_ok _ (outcome_get s),
    outcome_bind_of_ok _ (outcome_get s.free), Store.slot_free]
  rcases hs i with hi | ⟨v, hi⟩
  · rw [hi]
    exact throw (m := m) (n := n) _ s hs hm
  · rw [hi]
    exact pure (m := m) (n := n) v s hs hm

variable {env : Env}

theorem cons (hm : m.config.IsEager) (hm' : m'.config.IsEager) (k : Nat)
    (hev : ∀ e, WithinLimit m n (ev m env e) (ev' m' env e)) (h t : Expr V L) :
    WithinLimit m n (Eval.cons k ev m env h t) (Eval.cons k ev' m' env h t) := by
  rw [Eval.cons_value ev env hm, Eval.cons_value ev' env hm']
  refine bind (hev h) (fun v => bind (hev t) (fun w => ?_))
  split
  · refine modifyGet (fun _ => rfl) (fun _ => rfl) (fun s hs i => ?_)
    rw [Store.slot_newPair]
    split
    · exact .inr ⟨v, rfl⟩
    · split
      · exact .inr ⟨w, rfl⟩
      · exact hs i
  · exact bind (shown k w) (fun _ => throw _)

theorem bindEach (hm : m.config.IsEager) (hm' : m'.config.IsEager)
    (hev : ∀ e, WithinLimit m n (ev m env e) (ev' m' env e)) (bs : List Binding)
    (es : List (Expr V L)) :
    WithinLimit m n (Eval.bindEach ev m env bs es) (Eval.bindEach ev' m' env bs es) := by
  induction bs generalizing es with
  | nil =>
    cases es <;> exact pure _
  | cons b bs ih =>
    cases es with
    | nil => exact pure _
    | cons e es =>
      rw [Eval.bindEach_cons ev env hm, Eval.bindEach_cons ev' env hm']
      refine bind (hev e) (fun v => bind ?_ (fun _ => ih es))
      refine modify (fun _ => rfl) (fun _ => rfl) (fun s hs i => ?_)
      rw [Store.slot_setSlot]
      split
      · exact .inr ⟨v, rfl⟩
      · exact hs i

/-- Making a frame, binding its expressions and going on. -/
theorem bindFrame (hm : m.config.IsEager) (hm' : m'.config.IsEager) {scope : Frame → Env}
    (hev : ∀ env e, WithinLimit m n (ev m env e) (ev' m' env e)) (names : List String)
    (es : List (Expr V L)) {f g : Frame → Eval V L α}
    (hfg : ∀ frame, WithinLimit m n (f frame) (g frame)) :
    WithinLimit m n
      (do
        let frame ← EvalOps.newFrame names
        Eval.bindEach ev m (scope frame) frame es
        f frame)
      (do
        let frame ← EvalOps.newFrame names
        Eval.bindEach ev' m' (scope frame) frame es
        g frame) := by
  refine bind (modifyGet (fun _ => rfl) (fun _ => rfl) (fun s hs i => ?_))
    (fun frame => bind (bindEach hm hm' (hev _) frame es) (fun _ => hfg frame))
  rw [Store.slot_newFrame]
  exact hs i

/-! ## Evaluation -/

def congruence (V L : Type) (m : Machine) (n : Nat) : Congruence V L where
  Rel := WithinLimit m n
  within := Eq
  pure := pure
  throw := throw
  bind := bind
  exhausted y hy hn := by
    rw [← hn, hy]
    exact exhausted
  pred := Congruence.pred_eq
  shown v hn := hn ▸ shown _ v
  cell i _ _ _ hf := by
    have hread : WithinLimit m n (do return (← get).cell i : Eval V L (Value V L))
        (do return (← get).cell i) := by
      refine fun s hs _ => .inl ⟨rfl, fun a s' h => ?_⟩
      cases h
      exact ⟨hs, rfl, rfl⟩
    have h := bind hread hf
    simp only [bind_assoc, pure_bind] at h
    exact h
  newRef _ := modifyGet (fun _ => rfl) (fun _ => rfl) (fun _ hs => hs)
  setCell _ _ := modify (fun _ => rfl) (fun _ => rfl) (fun _ hs => hs)
  newClosure _ := modifyGet (fun _ => rfl) (fun _ => rfl) (fun _ hs => hs)

theorem parts (hm : m.config.IsEager) (hm' : m'.config.IsEager) (k : Nat)
    (hev : ∀ env e, WithinLimit m n (ev m env e) (ev' m' env e)) :
    (congruence V L m n).Parts k k ev ev' m m' where
  within := rfl
  eval := hev
  force := force
  cons env := cons hm hm' k (hev env)
  frame _ names es _ _ hfg := bindFrame hm hm' hev names es hfg

theorem marking (marker : Option EvalError) (k : Nat) (v w : Value V L) :
    WithinLimit m n (Eval.marking marker k ev v w) (Eval.marking marker k ev' v w) :=
  Congruence.marking (c := congruence V L m n) marker rfl force v w

variable [Variable V]

/-- One level of the recursion of a run, one call at most. -/
theorem stepFreely (marker : Option EvalError) (hm : m.config.IsEager)
    (hm' : m'.config.IsEager) (hev : ∀ env e, WithinLimit m n (ev m env e) (ev' m' env e))
    (env : Env) (e : Expr V L) :
    WithinLimit m (n + 1) (Eval.stepWith (Eval.marking marker) n ev m env e)
      (Eval.stepFreely (Eval.marking marker) n ev' m' env e) :=
  (parts hm hm' n (fun env e => (hev env e).mono (Nat.le_succ n))).stepBy env
    (marking marker n) (fun env e => nested (hev env e)) e

theorem evalFreely (marker : Option EvalError) (hm : m.config.IsEager)
    (hm' : m'.config.IsEager) (n : Nat) (env : Env) (e : Expr V L) :
    WithinLimit m n (Machine.evalWith (Eval.marking marker) n m env e)
      (Machine.evalFreely (Eval.marking marker) n m' env e) := by
  induction n generalizing env e with
  | zero => exact exhausted
  | succ n ih => exact stepFreely marker hm hm' ih env e

end WithinLimit

end

/-! ## Closed programs -/

def Machine.eager : Machine := ⟨⟨.value, .value, 0⟩, 0⟩

theorem Machine.isEager_eager : Machine.eager.config.IsEager := ⟨rfl, rfl⟩

section

variable [Variable V]

def runFreely (marker : Option EvalError) (n : Nat) (e : Expr V L) :
    Option (Except EvalError (Value V L) × Store V L) :=
  outcome (Machine.evalFreely (Eval.marking marker) n .eager [] e) Store.empty

variable {marker : Option EvalError} {n n' d : Nat} {e : Expr V L}

/-- What a program does freely for some number, it does for every larger one. -/
theorem runFreely_mono {o : Except EvalError (Value V L) × Store V L} (hn : n ≤ n')
    (h : runFreely marker n e = some o) : runFreely marker n' e = some o :=
  Below.evalFreely (fun _ _ _ _ v w hle hev => .marking marker hev hle v w) hn _ _ e _ o h

/-- A closed program does what its free run does, unless its calls nest deeper than the limit
allows. -/
theorem runFreely_or_exceeds (marker : Option EvalError) (n d : Nat) (e : Expr V L) :
    runFreely marker n e =
        (evaluateWith (Eval.marking marker) n ⟨.value, .value, d⟩ e).map
          (fun o => (o.1, o.2.free)) ∨
      d < n ∧ ∃ s, evaluateWith (Eval.marking marker) n ⟨.value, .value, d⟩ e =
        some (.error (.depthExceeded d), s) := by
  have heager : (Store.empty.newMachine ⟨.value, .value, d⟩ : Machine × Store V L).2.Eager :=
    fun i => .inl (Store.slot_eq_uninit (Nat.zero_le i))
  rcases WithinLimit.evalFreely (m := ⟨⟨.value, .value, d⟩, 0⟩) marker ⟨rfl, rfl⟩
    Machine.isEager_eager n [] e _ heager Nat.zero_lt_one with ⟨hsame, -⟩ | ⟨hlt, hexceeds⟩
  · exact .inl hsame
  · exact .inr ⟨by simpa [Store.newMachine, Store.depth, Store.empty] using hlt, hexceeds⟩

variable {s : Store V L}

/-- The value of a free run is there in full. -/
theorem eager_of_runFreely {v : Value V L} (h : runFreely marker n e = some (.ok v, s)) :
    s.Eager := by
  have hempty : (Store.empty.newMachine ⟨.value, .value, n⟩ : Machine × Store V L).2.Eager :=
    fun i => .inl (Store.slot_eq_uninit (Nat.zero_le i))
  rcases WithinLimit.evalFreely (m := ⟨⟨.value, .value, n⟩, 0⟩) marker ⟨rfl, rfl⟩
    Machine.isEager_eager n [] e _ hempty Nat.zero_lt_one with ⟨hsame, heager⟩ | ⟨hlt, -⟩
  · obtain ⟨⟨r, s'⟩, ho, heq⟩ := Option.map_eq_some_iff.mp (hsame.symm.trans h)
    cases heq
    exact (heager v s' ho).1
  · simp [Store.newMachine, Store.depth, Store.empty] at hlt

/-- What a program gives with a limit its free run gives, unless the limit is exceeded. -/
theorem runFreely_of_evaluateWith {r : Except EvalError (Value V L)}
    (h : evaluateWith (Eval.marking marker) n ⟨.value, .value, d⟩ e = some (r, s))
    (hr : r ≠ .error (.depthExceeded d)) : runFreely marker n e = some (r, s.free) := by
  rcases runFreely_or_exceeds marker n d e with hsame | ⟨-, s', hexceeds⟩
  · rw [hsame, h]
    rfl
  · cases h.symm.trans hexceeds
    exact absurd rfl hr

/-- What a free run gives the program gives with every limit that is large enough. -/
theorem evaluateWith_of_runFreely {r : Except EvalError (Value V L)}
    (h : runFreely marker n e = some (r, s)) (hd : n ≤ d) :
    ∃ s', s'.free = s ∧
      evaluateWith (Eval.marking marker) n ⟨.value, .value, d⟩ e = some (r, s') := by
  rcases runFreely_or_exceeds marker n d e with hsame | ⟨hlt, -⟩
  · obtain ⟨⟨r', s'⟩, ho, heq⟩ := Option.map_eq_some_iff.mp (hsame.symm.trans h)
    cases heq
    exact ⟨s', rfl, ho⟩
  · omega

end

end Mapling
