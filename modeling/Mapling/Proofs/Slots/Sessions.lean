import Mapling.Proofs.Slots.Order

/-! # Every slot lives its life in order

Every operation of the evaluator does with a chronicle what it does without, and keeps the slots in
order (`Chronicles`). That is a relation which evaluation respects, so it has to be shown only of
the operations that have to do with slots. Forcing and binding change slots that exist, and they
find the slot that they change in the state that they left it in, because nothing else touched it.
So after any sequence of evaluations, renderings and comparisons the chronicle gives every slot a
life (`slot_life`). -/

namespace Mapling

variable {V L α β : Type} {x : Chronicled V L α} {i : Nat} {s' : Store V L} {c' : Chronicle V L}

/-- `x` does the work of `y` and keeps the slots in order while it does. -/
structure Chronicles (x : Chronicled V L α) (y : Eval V L α) : Prop where
  agrees : x.Agrees y
  inOrder : ∀ s c, c.Tells s → InOrder [] s c (x.account s c)

/-- Evaluating an expression does the work of the evaluator and keeps the slots in order. -/
def ChroniclesEach (evc : Evaluator V L (Chronicled V L)) (ev : Evaluator V L) : Prop :=
  ∀ m env e, Chronicles (evc m env e) (ev m env e)

namespace Chronicles

theorem pure (a : α) : Chronicles (pure a : Chronicled V L α) (pure a) :=
  ⟨fun _ _ => rfl, fun _ c hc => ⟨hc, fun _ => .of_slots [] c rfl⟩⟩

variable {c : Chronicle V L} {s : Store V L} {y : Eval V L α}

theorem throw (e : EvalError) : Chronicles (throw e : Chronicled V L α) (throw e) :=
  ⟨fun _ _ => rfl, fun _ c hc => ⟨hc, fun _ => .of_slots [] c rfl⟩⟩

theorem exhausted : Chronicles (EvalOps.exhausted : Chronicled V L α) EvalOps.exhausted :=
  ⟨fun _ _ => rfl, fun _ _ hc => ⟨hc, fun hne => absurd rfl hne⟩⟩

theorem get : Chronicles (V := V) (L := L) get get :=
  ⟨fun _ _ => rfl, fun _ c hc => ⟨hc, fun _ => .of_slots [] c rfl⟩⟩

theorem modifyGet {f : Store V L → α × Store V L} (hf : ∀ s, (f s).2.slots = s.slots) :
    Chronicles (modifyGet f) (modifyGet f) :=
  ⟨fun _ _ => rfl, fun s c hc => ⟨hc.of_slots (hf s), fun _ => .of_slots [] c (hf s)⟩⟩

theorem bind {f : α → Chronicled V L β} {g : α → Eval V L β} (hx : Chronicles x y)
    (hf : ∀ a, Chronicles (f a) (g a)) : Chronicles (x >>= f) (y >>= g) :=
  ⟨hx.agrees.bind (fun a => (hf a).agrees),
    fun s c hc => (hx.inOrder s c hc).bind (fun a s' c' _ hc' _ => (hf a).inOrder s' c' hc')⟩

theorem shown (n : Nat) (v : Value V L) : Chronicles (Eval.shown n v) (Eval.shown n v) := by
  refine bind get (fun s => ?_)
  cases v.text s n with
  | some t => exact pure t
  | none => exact exhausted

theorem enter (m : Machine) : Chronicles (V := V) (L := L) (Eval.enter m) (Eval.enter m) := by
  refine bind get (fun s => ?_)
  dsimp only
  split
  · exact modifyGet (fun _ => rfl)
  · exact throw _

theorem nested (m : Machine) (hx : Chronicles x y) :
    Chronicles (Eval.nested m x) (Eval.nested m y) := by
  refine bind (enter m) (fun _ => ⟨hx.agrees.andThen _ _, fun s c hc => ?_⟩)
  have h := hx.inOrder s c hc
  rw [EvalOps.andThen, Chronicled.instEvalOps, Chronicled.account_andThen]
  rcases hr : x.account s c with ⟨(e | _) | a, s', c'⟩ <;> rw [hr] at h
  · exact ⟨h.tells.of_slots rfl, fun _ =>
      (h.undisturbed (fun he => by cases he)).trans (.of_slots [] c' rfl)⟩
  · exact h
  · exact ⟨h.tells.of_slots rfl, fun _ =>
      (h.undisturbed (fun he => by cases he)).trans (.of_slots [] c' rfl)⟩

/-! ## Slots -/

variable {evc : Evaluator V L (Chronicled V L)} {ev : Evaluator V L}

theorem give {v : Value V L} (hc : c.Tells s) (hi : i < s.slots.size)
    (h : s.slot i = .ready v ∨ ∃ x, s.slot i = .byName x) :
    InOrder [] s c ((EvalOps.give i (Pure.pure v) : Chronicled V L (Value V L)).account s c) :=
  ⟨hc.access hi h, fun _ => .access c h⟩

/-- What becomes of a slot whose suspension is evaluated by need: when the evaluation is over, the
slot is as the evaluation found it, and turns into what the result says. -/
theorem settle {x : Suspension V L} (hc : c.Tells s) (hi : i < s.slots.size)
    (hx : s.slot i = .byNeed x) (hc' : c'.Tells s')
    (hu : Undisturbed [] (s.setSlot i .forcing) ((i, .state .forcing) :: c) s' c')
    (r : Except EvalError (Value V L)) :
    Chronicle.Tells ((i, .state (Eval.settled x r)) :: (i, .result r) :: c')
        (s'.setSlot i (Eval.settled x r)) ∧
      Undisturbed [] s c (s'.setSlot i (Eval.settled x r))
        ((i, .state (Eval.settled x r)) :: (i, .result r) :: c') := by
  have hi' : i < (s.setSlot i .forcing).slots.size := by rwa [Store.size_setSlot]
  have hforcing : (s.setSlot i .forcing).slot i = .forcing := by
    rw [Store.slot_setSlot, if_pos ⟨rfl, hi⟩]
  have hlife : Life (.forcing x) (c'.history i) := by
    rw [hu.history i hi' (by simp) (.inr hforcing), Chronicle.history_cons_self]
    exact .forced (hc.life_of_slot hi (by simp) hx)
  obtain ⟨p, hp, hslot⟩ := hlife.settled r
  refine ⟨?_, ?_⟩
  · rw [hslot] at hp ⊢
    exact hc'.setSlot (Nat.lt_of_lt_of_le hi' hu.size) [_, _] hp
  · have hall : Undisturbed [i] s c (s'.setSlot i (Eval.settled x r)) _ :=
      ((Undisturbed.setSlot s c i .forcing [.state .forcing]).trans (hu.mono (by simp))).trans
        (.setSlot s' c' i (Eval.settled x r) [.state (Eval.settled x r), .result r])
    apply hall.shrink
    intro j hj _
    rw [List.mem_singleton.mp hj]
    exact ⟨x, hx⟩

theorem resume (hev : ChroniclesEach evc ev) (x : Suspension V L) :
    Chronicles (Eval.resume evc x) (Eval.resume ev x) :=
  nested x.machine (hev _ _ _)

/-- Forcing a slot does the work of the evaluator and brings the slot through its life. -/
theorem force (hev : ChroniclesEach evc ev) (label : String) (i : Nat) :
    Chronicles (Eval.force evc label i) (Eval.force ev label i) := by
  refine ⟨get.agrees.bind (fun s => ?_), fun s c hc => ?_⟩
  · cases s.slot i with
    | ready v => exact (pure v).agrees.give i
    | uninit | forcing => exact (throw _).agrees
    | byName x => exact (resume hev x).agrees.give i
    | byNeed x =>
      exact Chronicled.Agrees.bind (fun _ _ => rfl)
        (fun _ => ((resume hev x).agrees.andThen _ _).give i)
  · have hi : s.slot i ≠ .uninit → i < s.slots.size := by
      intro h
      by_contra hlt
      exact h (Store.slot_eq_uninit (Nat.le_of_not_lt hlt))
    rw [Eval.force, Chronicled.account_bind_of_ok (x := MonadState.get) _ rfl]
    cases hx : s.slot i with
    | ready v => exact give hc (hi (by simp [hx])) (.inl hx)
    | uninit | forcing => exact (throw _).inOrder s c hc
    | byName x =>
      -- the slot is as it was when its suspension has been evaluated
      have hlt := hi (by simp [hx])
      refine ((resume hev x).inOrder s c hc).bind (fun v s' c' _ hc' hu => ?_)
      refine give hc' (Nat.lt_of_lt_of_le hlt hu.size) (.inr ⟨x, ?_⟩)
      rw [hu.slot i hlt (by simp) (by simp [hx]), hx]
    | byNeed x =>
      have hlt := hi (by simp [hx])
      have hc1 : Chronicle.Tells ((i, .state .forcing) :: c) (s.setSlot i .forcing) :=
        hc.setSlot hlt [_] (p := .forcing x) (.forced (hc.life_of_slot hlt (by simp) hx))
      have hrun := (resume hev x).inOrder _ _ hc1
      rw [Chronicled.account_bind_of_ok _ (Chronicled.account_put i .forcing s c),
        Chronicled.give_eq, Chronicled.account_bind, EvalOps.settle, Chronicled.instEvalOps,
        Chronicled.account_andThen]
      rcases hr : (Eval.resume evc x).account (s.setSlot i .forcing)
        ((i, .state .forcing) :: c) with ⟨(e | _) | v, s', c'⟩ <;> rw [hr] at hrun
      · obtain ⟨htells, hu⟩ := settle hc hlt hx hrun.tells
          (hrun.undisturbed (fun he => by cases he)) (.error e)
        exact ⟨htells, fun _ => hu⟩
      · exact ⟨hrun.tells, fun hne => absurd rfl hne⟩
      · obtain ⟨htells, hu⟩ := settle hc hlt hx hrun.tells
          (hrun.undisturbed (fun he => by cases he)) (.ok v)
        have hlt' : i < s'.slots.size := by
          have := (hrun.undisturbed (fun he => by cases he)).size
          rw [Store.size_setSlot] at this
          exact Nat.lt_of_lt_of_le hlt this
        have hgive := give htells (by rwa [Store.size_setSlot])
          (.inl (by rw [Store.slot_setSlot, if_pos ⟨rfl, hlt'⟩]; rfl))
        exact ⟨hgive.tells, fun hne => hu.trans (hgive.undisturbed hne)⟩

/-! ## Binding -/

theorem defer (hev : ChroniclesEach evc ev) (m : Machine) (env : Env) (policy : Policy)
    (e : Expr V L) :
    Chronicles (Eval.defer evc m env policy e) (Eval.defer ev m env policy e) := by
  have hnow := bind (hev m env e) (fun v => pure (Slot.ready v))
  unfold Eval.defer
  split
  · exact hnow
  · cases policy with
    | value => exact hnow
    | name | need => exact pure _

/-- What an expression is bound as fills the slot. -/
theorem defer_filled {m : Machine} {env : Env} {policy : Policy} {e : Expr V L} {x : Slot V L}
    (h : (Eval.defer evc m env policy e).account s c = (.ok x, s', c')) :
    ∃ p : Phase V L, p.isFilled = true ∧ x = p.slot := by
  have hnow : ∀ r, (do return Slot.ready (← evc m env e)).account s c = r →
      r = (.ok x, s', c') → ∃ p : Phase V L, p.isFilled = true ∧ x = p.slot := by
    rintro _ rfl hr
    rw [Chronicled.account_bind] at hr
    rcases hv : (evc m env e).account s c with ⟨_ | v, _, _⟩ <;> rw [hv] at hr <;> cases hr
    exact ⟨.ready v, rfl, rfl⟩
  unfold Eval.defer at h
  split at h
  · exact hnow _ rfl h
  · cases policy with
    | value => exact hnow _ rfl h
    | name =>
      cases h
      exact ⟨.byName _, rfl, rfl⟩
    | need =>
      cases h
      exact ⟨.byNeed _, rfl, rfl⟩

section

variable (hev : ChroniclesEach evc ev)
include hev

theorem bindEach_agrees (m : Machine) (env : Env) (bs : List Binding) (es : List (Expr V L)) :
    Chronicled.Agrees (Eval.bindEach evc m env bs es) (Eval.bindEach ev m env bs es) := by
  induction bs generalizing es with
  | nil => cases es <;> exact fun _ _ => rfl
  | cons b bs ih =>
    cases es with
    | nil => exact fun _ _ => rfl
    | cons e es =>
      exact (defer hev m env _ e).agrees.bind
        (fun x => Chronicled.Agrees.bind (fun _ _ => rfl) (fun _ => ih es))

/-- Binding the expressions of a frame fills slots of the frame, each of them while it is not
initialised. -/
theorem bindEach_inOrder (m : Machine) (env : Env) {bs : List Binding} (es : List (Expr V L))
    (hc : c.Tells s) (hbs : (bs.map Binding.slot).Nodup)
    (hb : ∀ b ∈ bs, b.slot < s.slots.size ∧ s.slot b.slot = .uninit) :
    InOrder (bs.map Binding.slot) s c ((Eval.bindEach evc m env bs es).account s c) := by
  induction bs generalizing es s c with
  | nil => cases es <;> exact (pure ()).inOrder s c hc
  | cons b bs ih =>
    cases es with
    | nil => exact ((pure ()).inOrder s c hc).mono (by simp)
    | cons e es =>
      rw [List.map_cons, List.nodup_cons] at hbs
      obtain ⟨hlt, hun⟩ := hb b List.mem_cons_self
      have hdefer := (defer hev m env m.config.binding e).inOrder s c hc
      rw [Eval.bindEach]
      refine (hdefer.mono (by simp)).bind (fun x s1 c1 hx hc1 _ => ?_)
      obtain ⟨p, hp, rfl⟩ := defer_filled hx
      -- the evaluation of the expression has not touched the slots of the frame
      rw [hx] at hdefer
      have hu : Undisturbed [] s c s1 c1 := hdefer.undisturbed (fun he => by cases he)
      have hkept : ∀ b' ∈ b :: bs, b'.slot < s1.slots.size ∧ s1.slot b'.slot = .uninit := by
        intro b' hb'
        obtain ⟨hlt', hun'⟩ := hb b' hb'
        refine ⟨Nat.lt_of_lt_of_le hlt' hu.size, ?_⟩
        rw [hu.slot _ hlt' (by simp) (by simp [hun']), hun']
      obtain ⟨hlt1, hun1⟩ := hkept b List.mem_cons_self
      have hc2 : Chronicle.Tells ((b.slot, .state p.slot) :: c1) (s1.setSlot b.slot p.slot) :=
        hc1.setSlot hlt1 [_] (.filled (hc1.life_of_slot hlt1 (p := .declared) (by simp) hun1) hp)
      have hrest := ih es hc2 hbs.2 (fun b' hb' => ?_)
      · refine InOrder.bind (x := EvalOps.put b.slot p.slot) ⟨hc2, fun _ => ?_⟩ ?_
        · exact (Undisturbed.setSlot s1 c1 b.slot p.slot [.state p.slot]).mono (by simp)
        · intro _ _ _ hput _ _
          cases hput
          exact hrest.mono (fun _ => List.mem_cons_of_mem _)
      · obtain ⟨hlt', hun'⟩ := hkept b' (List.mem_cons_of_mem b hb')
        rw [Store.size_setSlot, Store.slot_setSlot, if_neg]
        · exact ⟨hlt', hun'⟩
        · rintro ⟨heq, -⟩
          exact hbs.1 (heq ▸ List.mem_map_of_mem hb')

/-- Making a frame, binding its expressions and going on. -/
theorem bindFrame (m : Machine) {scope : Frame → Env} (names : List String) (es : List (Expr V L))
    {f : Frame → Chronicled V L α} {g : Frame → Eval V L α}
    (hf : ∀ frame, Chronicles (f frame) (g frame)) :
    Chronicles
      (do
        let frame ← EvalOps.newFrame names
        Eval.bindEach evc m (scope frame) frame es
        f frame)
      (do
        let frame ← EvalOps.newFrame names
        Eval.bindEach ev m (scope frame) frame es
        g frame) := by
  refine ⟨Chronicled.Agrees.bind (fun _ _ => rfl) (fun frame =>
    (bindEach_agrees hev m _ frame es).bind (fun _ => (hf frame).agrees)), fun s c hc => ?_⟩
  rw [Chronicled.account_bind_of_ok _ (Chronicled.account_newFrame names s c)]
  have hbind := bindEach_inOrder hev m (scope (s.newFrame names).1) es (hc.newFrame names)
    (s.nodup_newFrame names) Store.uninit_newFrame
  have hall := hbind.bind (f := fun _ => f (s.newFrame names).1)
    (fun _ s' c' _ hc' _ => ((hf _).inOrder s' c' hc').mono (by simp))
  refine ⟨hall.tells, fun hne => ?_⟩
  -- the slots of the frame are new
  apply Undisturbed.shrink (((Undisturbed.newFrame s c names).mono (by simp)).trans
    (hall.undisturbed hne))
  intro i hi hlt
  obtain ⟨b, hb, rfl⟩ := List.mem_map.mp hi
  have := (Store.size_le_slot_newFrame hb).1
  omega

end

/-! ## Pairs -/

theorem newPair_inOrder (hc : c.Tells s) {head tail : Phase V L} (hhead : head.isFilled = true)
    (htail : tail.isFilled = true) :
    InOrder [] s c
      ((EvalOps.newPair head.slot tail.slot : Chronicled V L (Value V L)).account s c) :=
  ⟨hc.newPair hhead htail, fun _ => .newPair s c _ _⟩

/-- The construction of a pair, whose slots are filled from the start. -/
theorem cons (hev : ChroniclesEach evc ev) (n : Nat) (m : Machine) (env : Env) (h t : Expr V L) :
    Chronicles (Eval.cons n evc m env h t) (Eval.cons n ev m env h t) := by
  have hrefuse := fun v : Value V L => bind (shown n v) (fun shown =>
    throw (α := Value V L) (.notAList Prim.cons.name shown))
  refine ⟨(defer hev m env _ h).agrees.bind (fun head =>
    (defer hev m env _ t).agrees.bind (fun tail => ?_)), fun s c hc => ?_⟩
  · have hpair : Chronicled.Agrees (EvalOps.newPair head tail) (EvalOps.newPair head tail) :=
      fun _ _ => rfl
    cases m.config.cons with
    | value =>
      cases tail with
      | ready v =>
        dsimp only
        split
        · exact hpair
        · exact (hrefuse v).agrees
      | _ => exact hpair
    | _ => exact hpair
  · refine ((defer hev m env _ h).inOrder s c hc).bind (fun head s1 c1 h1 hc1 _ => ?_)
    refine ((defer hev m env _ t).inOrder s1 c1 hc1).bind (fun tail s2 c2 h2 hc2 _ => ?_)
    obtain ⟨p, hp, rfl⟩ := defer_filled h1
    obtain ⟨q, hq, rfl⟩ := defer_filled h2
    have hpair := newPair_inOrder hc2 hp hq
    cases m.config.cons with
    | value =>
      cases q with
      | ready v =>
        dsimp only [Phase.slot]
        split
        · exact hpair
        · exact (hrefuse v).inOrder s2 c2 hc2
      | _ => exact hpair
    | _ => exact hpair

/-! ## Expressions -/

/-- Evaluation respects that a computation keeps a chronicle. -/
def congruence (V L : Type) : Congruence V L (Chronicled V L) where
  Rel := Chronicles
  within := Eq
  pure := pure
  throw := throw
  bind := bind
  exhausted y h0 hn := by
    rw [← hn, h0]
    exact exhausted
  pred := Congruence.pred_eq
  shown v hn := hn ▸ shown _ v
  cell _ _ _ _ hf := bind get (fun _ => hf _)
  newRef _ := modifyGet (fun _ => rfl)
  setCell _ _ := modifyGet (fun _ => rfl)
  newClosure _ := modifyGet (fun _ => rfl)

theorem parts (hev : ChroniclesEach evc ev) (n : Nat) (m : Machine) :
    (congruence V L).Parts n n evc ev m m where
  within := rfl
  eval := hev m
  force := force hev
  cons := cons hev n m
  frame _ names es _ _ hf := bindFrame hev m names es hf

theorem equals (hev : ChroniclesEach evc ev) (n : Nat) (v w : Value V L) :
    Chronicles (Eval.equals evc n v w) (Eval.equals ev n v w) :=
  Congruence.equals (c := congruence V L) rfl (force hev) v w

variable [Variable V]

theorem eval (n : Nat) : ChroniclesEach (V := V) (L := L) (Machine.eval n) (Machine.eval n) := by
  induction n with
  | zero => exact fun _ _ _ => exhausted
  | succ n ih => exact fun m env e => (parts ih n m).step env (fun _ _ => nested m (ih _ _ _)) e

theorem render (n : Nat) (v : Value V L) : Chronicles (v.render n) (v.render n) := by
  refine (Congruence.render (c := congruence V L) (fun hn => ?_) rfl).1 v
  cases hn
  exact force (eval _)

end Chronicles

/-! ## Sessions -/

/-- Something an evaluator is used for. The number bounds the recursion; it is arbitrary, so this
may also be the first part of something that goes on. -/
inductive Use (V L : Type) where
  /-- Evaluate a closed program with a machine of its own. -/
  | evaluate (n : Nat) (config : Config) (e : Expr V L)
  | render (n : Nat) (v : Value V L)
  | equals (n : Nat) (v w : Value V L)

variable [Variable V]

def Use.after (t : Store V L × Chronicle V L) : Use V L → Store V L × Chronicle V L
  | evaluate n config e =>
    let (m, s) := t.1.newMachine config
    (Chronicled.account (m.eval n [] e) s t.2).2
  | render n v => (Chronicled.account (v.render n) t.1 t.2).2
  | equals n v w => (Chronicled.account (Eval.equals (Machine.eval n) n v w) t.1 t.2).2

/-- The store and the chronicle after a number of uses, one after the other. -/
def session (uses : List (Use V L)) : Store V L × Chronicle V L := uses.foldl Use.after (.empty, [])

theorem Use.tells {t : Store V L × Chronicle V L} (ht : t.2.Tells t.1) (use : Use V L) :
    (use.after t).2.Tells (use.after t).1 := by
  cases use with
  | evaluate n config e =>
    have hs : t.2.Tells (t.1.newMachine config).2 := ht.of_slots rfl
    exact ((Chronicles.eval n _ [] e).inOrder _ _ hs).tells
  | render n v => exact ((Chronicles.render n v).inOrder _ _ ht).tells
  | equals n v w => exact ((Chronicles.equals (Chronicles.eval n) n v w).inOrder _ _ ht).tells

theorem tells_session (uses : List (Use V L)) : (session uses).2.Tells (session uses).1 := by
  have hfold : ∀ (uses : List (Use V L)) (t : Store V L × Chronicle V L), t.2.Tells t.1 →
      (uses.foldl Use.after t).2.Tells (uses.foldl Use.after t).1 := by
    intro uses
    induction uses with
    | nil => exact fun _ ht => ht
    | cons use uses ih => exact fun t ht => ih _ (Use.tells ht use)
  exact hfold uses _ ⟨fun i hi => absurd hi (Nat.not_lt_zero i), fun _ _ => rfl⟩

/-- The chronicle is that of the evaluator: keeping it changes nothing in what evaluating, rendering
and comparing give. And whatever evaluators are used for, under whatever policies, every slot lives
its life in order; its suspension, if it has one, is evaluated by need with success at most once,
and every access from then on gives the value that was found. -/
theorem slot_life (uses : List (Use V L)) :
    ((∀ n (m : Machine) env (e : Expr V L),
        (m.eval n env e : Chronicled V L (Value V L)).Agrees (m.eval n env e)) ∧
      (∀ n (v : Value V L), (v.render n : Chronicled V L String).Agrees (v.render n)) ∧
      ∀ n (v w : Value V L),
        (Eval.equals (Machine.eval n) n v w : Chronicled V L Bool).Agrees
          (Eval.equals (Machine.eval n) n v w)) ∧
    ∀ i < (session uses).1.slots.size,
      (∃ p, Life p ((session uses).2.history i) ∧ (session uses).1.slot i = p.slot) ∧
      (((session uses).2.history i).filterMap Moment.success?).length ≤ 1 ∧
      ((session uses).2.history i).Pairwise Moment.Repeats := by
  refine ⟨⟨fun n m env e => (Chronicles.eval n m env e).agrees, fun n v =>
    (Chronicles.render n v).agrees, fun n v w =>
    (Chronicles.equals (Chronicles.eval n) n v w).agrees⟩, fun i hi => ?_⟩
  obtain ⟨p, hp, hslot⟩ := (tells_session uses).life i hi
  refine ⟨⟨p, hp, hslot⟩, ?_, hp.repeats⟩
  rcases hp.successes with hnone | ⟨v, hone, -⟩
  · rw [hnone]
    exact Nat.zero_le 1
  · rw [hone]
    exact Nat.le_refl 1

def squareOfSum : NamedExpr :=
  .mkLet [(⟨"x", .synthetic⟩, .mkBinary .add (.int .synthetic 1) (.int .synthetic 2))]
    (.mkApp (.prim .synthetic .cons)
      [.mkBinary .mul (.mkVar ⟨"x", .synthetic⟩) (.mkVar ⟨"x", .synthetic⟩), .null .synthetic])

def renderedTwice : List (Use Ident Unit) :=
  [.evaluate 9 ⟨.need, .need, 9⟩ squareOfSum, .render 9 (.pair 1 2), .render 9 (.pair 1 2)]

/-- The sum is found once, by the first rendering, which accesses it twice; the second rendering
finds the square. -/
theorem slot_life_renderedTwice :
    0 < (session renderedTwice).1.slots.size ∧
      (∃ x, (session renderedTwice).2.history 0 =
        [.access (.int 3), .access (.int 3), .state (.ready (.int 3)), .result (.ok (.int 3)),
          .state .forcing, .state (.byNeed x), .state .uninit]) ∧
      ((∃ p, Life p ((session renderedTwice).2.history 0) ∧
        (session renderedTwice).1.slot 0 = p.slot) ∧
      (((session renderedTwice).2.history 0).filterMap Moment.success?).length ≤ 1 ∧
      ((session renderedTwice).2.history 0).Pairwise Moment.Repeats) := by
  have hsize : 0 < (session renderedTwice).1.slots.size := by decide
  exact ⟨hsize, ⟨_, rfl⟩, (slot_life renderedTwice).2 0 hsize⟩

end Mapling
