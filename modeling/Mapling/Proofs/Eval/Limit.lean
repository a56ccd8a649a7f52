import Mapling.Proofs.Eval.Fuel
import Mapling.Proofs.Value.Alike
import Mathlib

/-! # The depth limit is only a limit

The depth limit of a machine is consulted on every call and whenever something that was put off is
evaluated, and a suspension carries the machine that made it, limit included, into the rendering
of a value. All a limit can do is to end a run with the error that it is exceeded: nothing catches
an error, and nothing else reads the limit.

So two runs, one of them with higher limits, go in lock step until the first one exceeds a limit
(`Raises`). Their stores are the same but for the limits in the suspensions (`Store.raised`). -/

namespace Mapling

variable {V L : Type}

/-! ## Stores with higher limits -/

/-- The machine with a limit of at least `d`. -/
def Machine.raised (d : Nat) (m : Machine) : Machine :=
  ⟨{ m.config with maxDepth := max m.config.maxDepth d }, m.counter⟩

def Suspension.raised (d : Nat) (s : Suspension V L) : Suspension V L :=
  ⟨s.expr, s.env, s.machine.raised d⟩

def Slot.raised (d : Nat) : Slot V L → Slot V L
  | .byName s => .byName (s.raised d)
  | .byNeed s => .byNeed (s.raised d)
  | x => x

def Store.raised (d : Nat) (s : Store V L) : Store V L :=
  { s with slots := s.slots.map (Slot.raised d) }

namespace Store

variable (d : Nat) (s : Store V L)

@[simp] theorem slot_raised (i : Nat) : (s.raised d).slot i = (s.slot i).raised d := by
  simp only [slot, raised, Array.getD_eq_getD_getElem?, Array.getElem?_map]
  cases s.slots[i]? <;> rfl

@[simp] theorem cell_raised (i : Nat) : (s.raised d).cell i = s.cell i := rfl

@[simp] theorem depth_raised (m : Machine) : (s.raised d).depth (m.raised d) = s.depth m := rfl

theorem setSlot_raised (i : Nat) (x : Slot V L) :
    (s.setSlot i x).raised d = (s.raised d).setSlot i (x.raised d) := by
  simp [setSlot, raised, Array.map_setIfInBounds]

theorem newPair_raised (head tail : Slot V L) :
    (s.raised d).newPair (head.raised d) (tail.raised d) =
      ((s.newPair head tail).1, (s.newPair head tail).2.raised d) := by
  simp [newPair, raised]

theorem newFrame_raised (names : List String) :
    (s.raised d).newFrame names = ((s.newFrame names).1, (s.newFrame names).2.raised d) := by
  simp [newFrame, raised, Slot.raised]

/-- In a store that has nothing but a machine nothing is put off. -/
theorem newMachine_raised (config : Config) :
    ((empty : Store V L).newMachine config).2.raised d = (empty.newMachine config).2 := by
  simp [raised, newMachine, empty]

end Store

/-- Limits cannot be seen in a text. -/
theorem Value.text_raised (d : Nat) (s : Store V L) (n : Nat) (v : Value V L) :
    v.text (s.raised d) n = v.text s n := by
  have hpart : ∀ i, Option.Rel Eq ((s.raised d).slot i).value? (s.slot i).value? := by
    intro i
    rw [Store.slot_raised]
    cases s.slot i with
    | ready v => exact .some rfl
    | _ => exact .none
  have hlike : ∀ v w : Value V L, v = w → Alike Eq (s.raised d) s v w := by
    rintro v _ rfl
    cases v with
    | int n => exact .int n
    | bool b => exact .bool b
    | null => exact .null
    | unit => exact .unit
    | prim p => exact .prim p
    | closure i c => exact .closure rfl
    | ref i => exact .ref rfl
    | pair h k => exact .pair (hpart h) (hpart k)
  exact (text_eq_of_alike hlike n).1 v v rfl

/-! ## Runs in lock step -/

/-- What the run with lower limits and the run with higher limits give. The result of the second
one is the image of the result of the first; if the first exceeds a limit, the second may do
anything. -/
inductive Raised {α β : Type} (d : Nat) (f : α → β) :
    Option (Except EvalError α × Store V L) → Option (Except EvalError β × Store V L) → Prop
  | none : Raised d f none none
  | ok (a : α) (s : Store V L) : Raised d f (some (.ok a, s)) (some (.ok (f a), s.raised d))
  | error (e : EvalError) (s : Store V L) :
      Raised d f (some (.error e, s)) (some (.error e, s.raised d))
  | exceeded (limit : Nat) (s : Store V L) (o : Option (Except EvalError β × Store V L)) :
      Raised d f (some (.error (.depthExceeded limit), s)) o

/-- `y` does with higher limits what `x` does, unless `x` exceeds a limit. -/
def Raises {α β : Type} (d : Nat) (f : α → β) (x : Eval V L α) (y : Eval V L β) : Prop :=
  ∀ s, Raised d f (outcome x s) (outcome y (s.raised d))

def EvaluatorsRaise (d : Nat) (ev ev' : Evaluator V L) : Prop :=
  ∀ m env e, Raises d id (ev m env e) (ev' (m.raised d) env e)

namespace Raises

variable {α β γ δ : Type} {d n : Nat} {f : α → β} {g : γ → δ}

theorem pure (a : α) : Raises d f (pure a : Eval V L α) (pure (f a)) := fun s => .ok a s

theorem throw (e : EvalError) : Raises d f (throw e : Eval V L α) (throw e) :=
  fun s => .error e s

theorem exhausted : Raises d f (EvalOps.exhausted : Eval V L α) EvalOps.exhausted := fun _ => .none

variable {x : Eval V L α} {y : Eval V L β}

theorem bind {k : α → Eval V L γ} {k' : β → Eval V L δ} (hx : Raises d f x y)
    (hk : ∀ a, Raises d g (k a) (k' (f a))) : Raises d g (x >>= k) (y >>= k') := by
  intro s
  have h := hx s
  rw [outcome_bind, outcome_bind]
  generalize outcome x s = o, outcome y (s.raised d) = o' at h
  cases h with
  | none => exact .none
  | ok a s => exact hk a s
  | error e s => exact .error e s
  | exceeded limit s o => exact .exceeded limit s _

theorem bind_get {k : Store V L → Eval V L γ} {k' : Store V L → Eval V L δ}
    (hk : ∀ s, Raises d g (k s) (k' (s.raised d))) : Raises d g (get >>= k) (get >>= k') :=
  bind (f := Store.raised d) (fun s => .ok s s) hk

theorem modifyGet {k : Store V L → α × Store V L} {k' : Store V L → β × Store V L}
    (hk : ∀ s, k' (s.raised d) = (f (k s).1, (k s).2.raised d)) :
    Raises d f (modifyGet k : Eval V L α) (modifyGet k') := by
  intro s
  rw [outcome_modifyGet, outcome_modifyGet, hk]
  exact .ok _ _

theorem modify {k k' : Store V L → Store V L} (hk : ∀ s, k' (s.raised d) = (k s).raised d) :
    Raises d id (modify k : Eval V L PUnit) (modify k') := by
  intro s
  rw [outcome_modify, outcome_modify, hk]
  exact .ok _ _

theorem andThen {k : Except EvalError α → Store V L → Store V L}
    {k' : Except EvalError β → Store V L → Store V L} (hx : Raises d f x y)
    (hok : ∀ a s, k' (.ok (f a)) (s.raised d) = (k (.ok a) s).raised d)
    (herror : ∀ e s, k' (.error e) (s.raised d) = (k (.error e) s).raised d) :
    Raises d f (EvalOps.andThen x k) (EvalOps.andThen y k') := by
  intro s
  have h := hx s
  rw [Eval.outcome_andThen, Eval.outcome_andThen]
  generalize outcome x s = o, outcome y (s.raised d) = o' at h
  cases h with
  | none => exact .none
  | ok a s =>
    simp only [Option.map_some, hok]
    exact .ok a _
  | error e s =>
    simp only [Option.map_some, herror]
    exact .error e _
  | exceeded limit s o => exact .exceeded limit _ _

theorem shown (k : Nat) (v : Value V L) : Raises d id (Eval.shown k v) (Eval.shown k v) := by
  intro s
  rw [Eval.outcome_shown, Eval.outcome_shown, Value.text_raised]
  cases v.text s k with
  | none => exact .none
  | some t => exact .ok t s

/-- A level that the lower limit allows, the higher one allows as well. -/
theorem nested (m : Machine) (hx : Raises d f x y) :
    Raises d f (Eval.nested m x) (Eval.nested (m.raised d) y) := by
  refine bind (f := id) ?_ (fun _ => andThen hx (fun _ _ => rfl) (fun _ _ => rfl))
  refine bind_get (fun s => ?_)
  rw [Store.depth_raised]
  by_cases hlower : s.depth m < m.config.maxDepth
  · have hhigher : s.depth m < (m.raised d).config.maxDepth :=
      Nat.lt_of_lt_of_le hlower (Nat.le_max_left _ _)
    simp only [hlower, hhigher, if_true]
    exact modify (fun _ => rfl)
  · simp only [hlower, if_false]
    exact fun s => .exceeded _ s _

/-! ## Slots, pairs and frames -/

variable {ev ev' : Evaluator V L}

theorem resume (hev : EvaluatorsRaise d ev ev') (s : Suspension V L) :
    Raises d id (Eval.resume ev s) (Eval.resume ev' (s.raised d)) :=
  nested s.machine (hev s.machine s.env s.expr)

/-- Forcing a slot does the same under a higher limit. -/
theorem force (hev : EvaluatorsRaise d ev ev') (label : String) (i : Nat) :
    Raises d id (Eval.force ev label i) (Eval.force ev' label i) := by
  refine bind_get (fun s => ?_)
  rw [Store.slot_raised]
  cases s.slot i with
  | ready v => exact pure v
  | uninit | forcing => exact throw _
  | byName susp => exact resume hev susp
  | byNeed susp =>
    refine bind (modify (fun s => ?_)) (fun _ => ?_)
    · rw [Store.setSlot_raised]
      rfl
    · -- a result is kept, and a failure puts the suspension back, with its limit
      refine andThen (resume hev susp) (fun v s => ?_) (fun e s => ?_)
      · exact (Store.setSlot_raised d s i (.ready v)).symm
      · exact (Store.setSlot_raised d s i (.byNeed susp)).symm

theorem defer (hev : EvaluatorsRaise d ev ev') (m : Machine) (env : Env) (policy : Policy)
    (e : Expr V L) : Raises d (Slot.raised d) (Eval.defer ev m env policy e)
      (Eval.defer ev' (m.raised d) env policy e) := by
  have hnow : Raises d (Slot.raised d) (do return .ready (← ev m env e))
      (do return .ready (← ev' (m.raised d) env e)) :=
    bind (hev m env e) (fun v => pure (Slot.ready v))
  unfold Eval.defer
  split
  · exact hnow
  · cases policy with
    | value => exact hnow
    | name => exact pure (Slot.byName ⟨e, env, m⟩)
    | need => exact pure (Slot.byNeed ⟨e, env, m⟩)

theorem bindEach (hev : EvaluatorsRaise d ev ev') (m : Machine) (env : Env) (bs : List Binding)
    (es : List (Expr V L)) :
    Raises d id (Eval.bindEach ev m env bs es) (Eval.bindEach ev' (m.raised d) env bs es) := by
  induction bs generalizing es with
  | nil => exact pure ()
  | cons b bs ih =>
    cases es with
    | nil => exact pure ()
    | cons e es =>
      refine bind (defer hev m env m.config.binding e) (fun x => ?_)
      refine bind (modify (fun s => ?_)) (fun _ => ih es)
      exact (Store.setSlot_raised d s b.slot x).symm

theorem declare (names : List String) :
    Raises d id (EvalOps.newFrame names : Eval V L Frame) (EvalOps.newFrame names) :=
  modifyGet (fun s => Store.newFrame_raised d s names)

theorem cons (hev : EvaluatorsRaise d ev ev') (k : Nat) (m : Machine) (env : Env)
    (h t : Expr V L) :
    Raises d id (Eval.cons k ev m env h t) (Eval.cons k ev' (m.raised d) env h t) := by
  refine bind (defer hev m env m.config.cons h) (fun x => ?_)
  refine bind (defer hev m env m.config.cons t) (fun y => ?_)
  have hnew : Raises d id (MonadState.modifyGet (fun s => s.newPair x y) : Eval V L (Value V L))
      (MonadState.modifyGet (fun s => s.newPair (x.raised d) (y.raised d))) :=
    modifyGet (fun s => Store.newPair_raised d s x y)
  simp only [Machine.raised]
  cases m.config.cons with
  | value =>
    cases y with
    | ready v =>
      simp only [Slot.raised]
      split
      · exact hnew
      · exact bind (shown k v) (fun _ => throw _)
    | _ => exact hnew
  | name | need => exact hnew

/-! ## Evaluation -/

def congruence (V L : Type) (d : Nat) : Congruence V L where
  Rel := Raises d id
  within := Eq
  pure := pure
  throw := throw
  bind hx hf := bind hx hf
  exhausted y hy hn := by
    rw [← hn, hy]
    exact exhausted
  pred := Congruence.pred_eq
  shown v hn := hn ▸ shown _ v
  cell _ _ _ _ hf := bind_get (fun _ => hf _)
  newRef _ := modifyGet (fun _ => rfl)
  setCell _ _ := modify (fun _ => rfl)
  newClosure _ := modifyGet (fun _ => rfl)

theorem parts (hev : EvaluatorsRaise d ev ev') (k : Nat) (m : Machine) :
    (congruence V L d).Parts k k ev ev' m (m.raised d) where
  within := rfl
  eval := hev m
  force := force hev
  cons := cons hev k m
  frame scope names es _ _ hf := bind (declare names) (fun frame =>
    bind (bindEach hev m (scope frame) frame es) (fun _ => hf frame))

variable [Variable V]

theorem eval (d n : Nat) :
    EvaluatorsRaise d (Machine.eval n : Evaluator V L) (Machine.eval n) := by
  induction n with
  | zero => exact fun m env e => exhausted
  | succ n ih =>
    exact fun m env e => (parts ih n m).step env (fun _ _ => nested m (ih m _ _)) e

/-- What was put off is evaluated by the machine that put it off, under its limit. -/
theorem render (d n : Nat) :
    (∀ v : Value V L, Raises d id (v.render n) (v.render n)) ∧
      ∀ h t, Raises d id (Value.renderItems n h t : Eval V L String) (Value.renderItems n h t) :=
  Congruence.render (c := congruence V L d) (fun hn => hn ▸ force (eval d _)) rfl

end Raises

/-! ## Evaluating and rendering -/

/-- What evaluating a program and then rendering its value ends in: the evaluation fails, or it
gives a value. Of the value there is its kind, its text before rendering, by the number that
bounds how far the text goes, and the rendering or how it fails. -/
inductive Ending where
  | failed (e : EvalError)
  | value (kind : String) (text : Nat → Option String) (rendering : Except EvalError String)

def Ending.error? : Ending → Option EvalError
  | .failed e => some e
  | .value _ _ (.error e) => some e
  | .value _ _ (.ok _) => none

variable [Variable V]

/-- Evaluate a program and render its value. The number bounds the recursion. -/
def evaluateAndRender (n : Nat) (config : Config) (e : Expr V L) : Option Ending := do
  match ← evaluate n config e with
  | (.error e, _) => return .failed e
  | (.ok v, s) =>
    let (r, _) ← outcome (v.render n) s
    return .value v.kind (fun k => v.text s k) r

/-- If evaluating a program and rendering its value ends, and not because the depth limit is
exceeded, it ends the same way under every higher limit. -/
theorem evaluateAndRender_of_maxDepth_le {n d : Nat} {config : Config} {e : Expr V L} {o : Ending}
    (hd : config.maxDepth ≤ d) (h : evaluateAndRender n config e = some o)
    (ho : ∀ limit, o.error? ≠ some (.depthExceeded limit)) :
    evaluateAndRender n { config with maxDepth := d } e = some o := by
  have hmachine : (Machine.mk config 0).raised d = ⟨{ config with maxDepth := d }, 0⟩ := by
    simp [Machine.raised, Nat.max_eq_right hd]
  have heval : Raised d id (evaluate n config e) (evaluate n { config with maxDepth := d } e) := by
    have hrun := Raises.eval d n ⟨config, 0⟩ [] e (Store.empty.newMachine config).2
    rw [hmachine, Store.newMachine_raised] at hrun
    exact hrun
  unfold evaluateAndRender at h ⊢
  generalize evaluate n config e = x, evaluate n { config with maxDepth := d } e = y at heval h
  cases heval with
  | none => cases h
  | error err s => exact h
  | exceeded limit s y =>
      cases h
      exact absurd rfl (ho limit)
  | ok v s =>
      have hrender := (Raises.render d n).1 v s
      simp only [Option.bind_eq_bind, Option.bind_some, id, Value.text_raised] at h ⊢
      generalize outcome (v.render n) s = x, outcome (v.render n) (s.raised d) = y at hrender h
      cases hrender with
      | none => cases h
      | ok | error => exact h
      | exceeded limit s' y =>
          cases h
          exact absurd rfl (ho limit)

/-- `letrec f := map x to if x = 0 then 0 else f(x - 1); in cons(f(2), null)`. With lazy pairs no
function is called before the list is rendered. -/
def countdownLater : AddressedExpr :=
  let int (k : Int) : AddressedExpr := .int .synthetic k
  let x : AddressedExpr := .var .synthetic ⟨0, 0⟩
  .letIn .synthetic .recursive
    [(.synthetic "f", .map .synthetic [.synthetic "x"] ⟨1⟩
      (.cond .synthetic (.binary .synthetic .eq x (int 0)) (int 0)
        (.app .synthetic (.var .synthetic ⟨1, 0⟩) [.binary .synthetic .sub x (int 1)])))] ⟨1⟩
    (.app .synthetic (.prim .synthetic .cons)
      [.app .synthetic (.var .synthetic ⟨0, 0⟩) [int 2], .null .synthetic])

/-- Rendering the list takes four levels; three are not enough, and a thousand change nothing. -/
theorem evaluateAndRender_countdownLater :
    (evaluateAndRender 20 ⟨.value, .need, 3⟩ countdownLater).bind Ending.error? =
        some (.depthExceeded 3) ∧
      ∃ o, evaluateAndRender 20 ⟨.value, .need, 4⟩ countdownLater = some o ∧ o.error? = none ∧
        evaluateAndRender 20 ⟨.value, .need, 1000⟩ countdownLater = some o := by
  have hfour : (evaluateAndRender 20 ⟨.value, .need, 4⟩ countdownLater).map Ending.error? =
      some none := by cbv
  obtain ⟨o, hends, hok⟩ := Option.map_eq_some_iff.mp hfour
  refine ⟨by cbv, o, hends, hok, ?_⟩
  have hnot : ∀ limit, o.error? ≠ some (.depthExceeded limit) := by
    intro limit
    rw [hok]
    exact (Option.some_ne_none _).symm
  exact (evaluateAndRender_of_maxDepth_le (d := 1000) (by decide) hends hnot :)

end Mapling
