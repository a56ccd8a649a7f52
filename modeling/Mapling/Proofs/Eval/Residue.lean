import Mapling.Proofs.Eval.Eager

/-! # Evaluation leaves nothing behind

While a call or a suspension is being evaluated, the counter of its machine is one higher, and a
suspension that is evaluated by need marks its slot. An error can cross any number of these. The
computation that raised a counter or marked a slot takes that back whatever comes of what it ran
(`Restores`), so an evaluation that is over has left the counters and the marks as they were. And
only what is put off by need has changed of the slots that there were (`Store.Tidy`).

A frame is the one place where slots are written that somebody else might have marked in between.
Nobody can: the slots of a new frame are not initialised, and no computation adds a mark. -/

namespace Mapling

variable {V L α β : Type}

/-- Nothing is going on in the one store that is not going on in the other: all machines are at
the same depth, and the same slots are being evaluated by need. -/
structure Store.Balanced (s s' : Store V L) : Prop where
  depths : s'.depths = s.depths
  forcing : ∀ i, s'.slot i = .forcing ↔ s.slot i = .forcing

/-- A counter that was raised and is lowered is where it was. -/
theorem Store.depths_setDepth_pred {s s' : Store V L} {m : Machine}
    (h : s'.depths = (s.setDepth m (s.depth m + 1)).depths) :
    (s'.setDepth m (s'.depth m - 1)).depths = s.depths := by
  simp only [Store.setDepth, Store.depth] at h ⊢
  rw [h, Array.setIfInBounds_setIfInBounds]
  by_cases hm : m.counter < s.depths.size
  · simp [hm, Array.setIfInBounds]
  · simp [hm, Array.setIfInBounds]

namespace Store.Balanced

variable {s s' s'' : Store V L}

theorem refl (s : Store V L) : s.Balanced s := ⟨rfl, fun _ => .rfl⟩

theorem trans (h : s.Balanced s') (h' : s'.Balanced s'') : s.Balanced s'' :=
  ⟨h'.depths.trans h.depths, fun i => (h'.forcing i).trans (h.forcing i)⟩

/-- Every machine is at the depth it was at. -/
theorem depth (h : s.Balanced s') (m : Machine) : s'.depth m = s.depth m := by
  rw [Store.depth, h.depths, Store.depth]

/-- A slot without a mark may be put in any state that is no mark. -/
theorem setSlot {i : Nat} {x : Slot V L} (hi : s.slot i ≠ .forcing) (hx : x ≠ .forcing) :
    s.Balanced (s.setSlot i x) := by
  refine ⟨rfl, fun j => ?_⟩
  rw [slot_setSlot]
  split
  · rename_i hij
    obtain ⟨rfl, -⟩ := hij
    exact iff_of_false hx hi
  · rfl

theorem newFrame (s : Store V L) (names : List String) : s.Balanced (s.newFrame names).2 :=
  ⟨rfl, fun i => by rw [slot_newFrame]⟩

theorem newPair {head tail : Slot V L} (hh : head ≠ .forcing) (ht : tail ≠ .forcing) :
    s.Balanced (s.newPair head tail).2 := by
  refine ⟨rfl, fun i => ?_⟩
  rw [slot_newPair]
  split
  · rename_i hi
    exact iff_of_false hh (by rw [hi, slot_eq_uninit le_rfl]; nofun)
  · split
    · rename_i hi
      exact iff_of_false ht (by rw [hi, slot_eq_uninit (Nat.le_succ _)]; nofun)
    · rfl

end Store.Balanced

/-- What an evaluation makes of a store. Everything that it started is over. The slots that there
were are kept, except those that are put off by need and those in `written`. -/
structure Store.Tidy (written : List Nat) (s s' : Store V L) : Prop where
  balanced : s.Balanced s'
  size : s.slots.size ≤ s'.slots.size
  slot : ∀ i < s.slots.size, i ∉ written → (∀ x, s.slot i ≠ .byNeed x) → s'.slot i = s.slot i

instance (written : List Nat) : Course (Store.Tidy written : Store V L → Store V L → Prop) where
  same {s s'} hslots hdepths := by
    have hslot : ∀ i, s'.slot i = s.slot i := fun i => by rw [Store.slot, hslots, ← Store.slot]
    exact ⟨⟨hdepths, fun i => by rw [hslot]⟩, by rw [hslots], fun i _ _ _ => hslot i⟩
  trans h h' := by
    refine ⟨h.balanced.trans h'.balanced, h.size.trans h'.size, fun i hi hw hneed => ?_⟩
    have hkept := h.slot i hi hw hneed
    rw [h'.slot i (hi.trans_le h.size) hw (hkept ▸ hneed), hkept]

namespace Store.Tidy

variable {written : List Nat} {s s' : Store V L} {x y : Slot V L}

theorem mono {more : List Nat} (h : s.Tidy written s') (hsub : ∀ i ∈ written, i ∈ more) :
    s.Tidy more s' :=
  ⟨h.balanced, h.size, fun i hi hw => h.slot i hi (fun hmem => hw (hsub i hmem))⟩

/-- A slot without a mark may be filled. -/
theorem setSlot {i : Nat} (hi : s.slot i ≠ .forcing) (hx : x ≠ .forcing) :
    s.Tidy [i] (s.setSlot i x) :=
  ⟨.setSlot hi hx, (s.size_setSlot i x).ge, fun j _ hw _ => by
    rw [slot_setSlot, if_neg (fun h => hw (List.mem_singleton.mpr h.1.symm))]⟩

theorem newPair (hx : x ≠ .forcing) (hy : y ≠ .forcing) : s.Tidy [] (s.newPair x y).2 :=
  ⟨.newPair hx hy, (s.kept_newPair x y).size, fun i hi _ _ => (s.kept_newPair x y).slot i hi⟩

/-- Writing to the slots of a new frame keeps the slots that there were. -/
theorem of_newFrame {names : List String}
    (h : (s.newFrame names).2.Tidy ((s.newFrame names).1.map Binding.slot) s') :
    s.Tidy [] s' := by
  have hframe := s.kept_newFrame names
  refine ⟨(Balanced.newFrame s names).trans h.balanced, hframe.size.trans h.size,
    fun i hi _ hneed => ?_⟩
  rw [h.slot i (hi.trans_le hframe.size), slot_newFrame]
  · rw [map_slot_newFrame, List.mem_range'_1]
    omega
  · rwa [slot_newFrame]

/-- A value that has been found stays. -/
theorem ready (h : s.Tidy written s') {i : Nat} {v : Value V L} (hi : s.slot i = .ready v)
    (hw : i ∉ written) : s'.slot i = .ready v := by
  rw [h.slot i (lt_size_of_ready hi) hw (by rw [hi]; rintro _ ⟨⟩), hi]

end Store.Tidy

/-- However the computation ends, the store is left as an evaluation leaves it. -/
abbrev Tidies (x : Eval V L α) : Prop := Leaves (Store.Tidy []) x

namespace Tidies

variable {m : Machine} {x : Eval V L α} {ev : Evaluator V L}

/-! ## Counters and marks -/

/-- One level deeper: the counter is raised first and lowered in the end. -/
theorem nested (m : Machine) (hx : Tidies x) : Tidies (Eval.nested m x) := by
  intro s r s' ho
  rw [Eval.nested, outcome_bind, Eval.enter, outcome_bind_of_ok _ (outcome_get s)] at ho
  by_cases hd : s.depth m < m.config.maxDepth
  · simp only [hd, if_true, outcome_modify, Eval.outcome_andThen] at ho
    obtain ⟨⟨r1, s1⟩, h1, heq⟩ := Option.map_eq_some_iff.mp ho
    cases heq
    have h := hx _ _ _ h1
    exact ⟨⟨Store.depths_setDepth_pred h.balanced.depths, h.balanced.forcing⟩, h.size, h.slot⟩
  · simp only [hd, if_false, outcome_throw] at ho
    cases ho
    exact Course.same rfl rfl

theorem resume (hev : ∀ m env e, Tidies (ev m env e)) (x : Suspension V L) :
    Tidies (Eval.resume ev x) := nested _ (hev _ _ _)

/-- A slot is marked while its suspension is evaluated by need, and not afterwards. -/
theorem force (hev : ∀ m env e, Tidies (ev m env e)) (label : String) (i : Nat) :
    Tidies (Eval.force ev label i) := by
  intro s r s' ho
  rw [Eval.force, outcome_bind_of_ok _ (outcome_get s)] at ho
  cases hi : s.slot i with
  | ready v =>
    rw [hi] at ho
    exact Leaves.pure v s r s' ho
  | uninit | forcing =>
    rw [hi] at ho
    exact Leaves.throw _ s r s' ho
  | byName x =>
    rw [hi] at ho
    exact resume hev x s r s' ho
  | byNeed x =>
    rw [hi] at ho
    dsimp only at ho
    rw [outcome_bind_of_ok _ (Eval.outcome_put _ _ _), Eval.outcome_settle] at ho
    obtain ⟨⟨r1, s1⟩, h1, heq⟩ := Option.map_eq_some_iff.mp ho
    cases heq
    -- the suspension runs with the slot marked; its run is balanced, so the slot is marked still
    have h := resume hev x _ _ _ h1
    have hsettled : Eval.settled x r1 ≠ .forcing := by cases r1 <;> rintro ⟨⟩
    have hlt : i < s.slots.size := Store.lt_size_of_slot (by rw [hi]; nofun)
    have hsize := h.size
    rw [Store.size_setSlot] at hsize
    have hother : ∀ {t : Store V L} {y j}, i ≠ j → (t.setSlot i y).slot j = t.slot j :=
      fun hij => by rw [Store.slot_setSlot, if_neg (fun h => hij h.1)]
    refine ⟨⟨h.balanced.depths, fun j => ?_⟩, by rwa [Store.size_setSlot],
      fun j hj _ hneed => ?_⟩
    · by_cases hij : i = j
      · subst hij
        rw [Store.slot_setSlot, if_pos ⟨rfl, hlt.trans_le hsize⟩, hi]
        exact iff_of_false hsettled (by rintro ⟨⟩)
      · rw [hother hij, h.balanced.forcing, hother hij]
    · have hij : i ≠ j := by
        rintro rfl
        exact hneed x hi
      rw [hother hij, h.slot j (by rwa [Store.size_setSlot]) List.not_mem_nil, hother hij]
      rwa [hother hij]

/-! ## Frames and pairs -/

/-- What is bound is never marked. -/
theorem ne_forcing_of_defer {m : Machine} {env : Env} {policy : Policy} {e : Expr V L}
    {s s' : Store V L} {x : Slot V L}
    (ho : outcome (Eval.defer ev m env policy e) s = some (.ok x, s')) : x ≠ .forcing := by
  have hnow : outcome (do return Slot.ready (← ev m env e)) s = some (.ok x, s') →
      x ≠ .forcing := by
    intro ho
    obtain ⟨v, s1, -, hx⟩ := outcome_bind_ok.mp ho
    cases hx
    rintro ⟨⟩
  unfold Eval.defer at ho
  split at ho
  · exact hnow ho
  · cases policy with
    | value => exact hnow ho
    | name | need =>
      cases ho
      rintro ⟨⟩

section

variable (hev : ∀ m env e, Tidies (ev m env e)) (m : Machine)

include hev

theorem defer (env : Env) (policy : Policy) (e : Expr V L) :
    Tidies (Eval.defer ev m env policy e) := by
  have hnow : Tidies (do return Slot.ready (← ev m env e)) :=
    Leaves.bind (hev m env e) (fun _ => Leaves.pure _)
  unfold Eval.defer
  split
  · exact hnow
  · cases policy with
    | value => exact hnow
    | name | need => exact Leaves.pure _

/-- Slots that are not marked can be bound. -/
theorem bindEach (env : Env) (bs : List Binding) (es : List (Expr V L)) (s : Store V L)
    (hbs : ∀ b ∈ bs, s.slot b.slot ≠ .forcing) :
    LeavesFrom (Store.Tidy (bs.map Binding.slot)) s (Eval.bindEach ev m env bs es) := by
  -- each step is balanced, so the slots that are left are not marked when their turn comes
  induction bs generalizing es s with
  | nil => cases es <;> exact Leaves.pure () s
  | cons b bs ih =>
    cases es with
    | nil => exact Leaves.pure () s
    | cons e es =>
      rw [Eval.bindEach]
      refine LeavesFrom.bind (fun r s1 h => (defer hev m env _ e s r s1 h).mono (by simp))
        (fun x s1 h => ?_)
      have h1 := (defer hev m env _ e s _ _ h).balanced
      have h2 : s1.Tidy [b.slot] (s1.setSlot b.slot x) :=
        .setSlot (fun hb => hbs b List.mem_cons_self ((h1.forcing _).mp hb)) (ne_forcing_of_defer h)
      refine LeavesFrom.bind ?_ ?_
      · rintro _ _ ⟨⟩
        exact h2.mono (by simp)
      · rintro _ _ ⟨⟩ r s' ho
        refine (ih es _ (fun b' hb' hforcing => ?_) r s' ho).mono (by simp +contextual)
        exact hbs b' (List.mem_cons_of_mem b hb') ((h1.trans h2.balanced).forcing _ |>.mp hforcing)

/-- Making a frame, binding its slots and going on. -/
theorem bindFrame (scope : Frame → Env) (names : List String) (es : List (Expr V L))
    {f : Frame → Eval V L α} (hf : ∀ frame, Tidies (f frame)) :
    Tidies (do
      let frame ← EvalOps.newFrame names
      Eval.bindEach ev m (scope frame) frame es
      f frame) := by
  intro s r s' ho
  have hdeclare : outcome (EvalOps.newFrame names : Eval V L Frame) s =
      some (.ok (s.newFrame names).1, (s.newFrame names).2) := rfl
  rw [outcome_bind_of_ok _ hdeclare] at ho
  -- new slots are empty, so none of them is marked
  have hbind := bindEach hev m (scope (s.newFrame names).1) (s.newFrame names).1 es _
    (fun b hb => by rw [(Store.uninit_newFrame b hb).2]; nofun)
  refine .of_newFrame (hbind.bind (fun _ s1 _ => ?_) r s' ho)
  exact fun r s' ho => (hf _ s1 r s' ho).mono (by simp)

theorem cons (n : Nat) (env : Env) (h t : Expr V L) : Tidies (Eval.cons n ev m env h t) := by
  intro s
  unfold Eval.cons
  refine (defer hev m env _ h s).bind (fun head s1 h1 =>
    (defer hev m env _ t s1).bind (fun tail s2 h2 => ?_))
  have hpair : LeavesFrom (Store.Tidy []) s2 (modifyGet (fun s => s.newPair head tail) :
      Eval V L (Value V L)) := by
    rintro _ _ ⟨⟩
    exact .newPair (ne_forcing_of_defer h1) (ne_forcing_of_defer h2)
  split
  · split
    · exact hpair
    · exact Leaves.bind (.shown n _) (fun _ => .throw _) s2
  · exact hpair

/-! ## Evaluation -/

theorem parts (n : Nat) : (Leaves.congruence (Store.Tidy [])).Parts n n ev ev m m where
  within := rfl
  eval := hev m
  force := force hev
  cons := cons hev m n
  frame scope names es _ _ hf := bindFrame hev m scope names es hf

omit m in
theorem equals (n : Nat) (v w : Value V L) : Tidies (Eval.equals ev n v w) := by
  have h : (Leaves.congruence (Store.Tidy [])).Rel (Eval.equals ev n v w)
      (Eval.equals ev n v w) := Congruence.equals rfl (force hev) v w
  exact h

end

variable [Variable V]

theorem eval (n : Nat) (m : Machine) (env : Env) (e : Expr V L) : Tidies (m.eval n env e) := by
  induction n generalizing m env e with
  | zero => exact Leaves.exhausted
  | succ n ih => exact (parts ih m n).step env (fun _ _ => nested m (ih _ _ _)) e

theorem render (n : Nat) (v : Value V L) : Tidies (v.render n) :=
  (Congruence.render (c := Leaves.congruence (Store.Tidy [])) (fun _ => force (eval _)) rfl).1 v

theorem renderItems (n i j : Nat) : Tidies (Value.renderItems n i j : Eval V L String) :=
  (Congruence.render (c := Leaves.congruence (Store.Tidy [])) (fun _ => force (eval _)) rfl).2 i j

end Tidies

/-! ## Top-level runs -/

/-- However the computation ends, all that it started is over. -/
def Restores (x : Eval V L α) : Prop :=
  ∀ s r s', outcome x s = some (r, s') → s.Balanced s'

theorem Tidies.restores {x : Eval V L α} (h : Tidies x) : Restores x :=
  fun s r s' ho => (h s r s' ho).balanced

/-- In a store where a machine has just been made nothing is going on. -/
theorem Store.idle_newMachine (config : Config) (m : Machine) (i : Nat) :
    (Store.empty.newMachine config : Machine × Store V L).2.depth m = 0 ∧
      (Store.empty.newMachine config : Machine × Store V L).2.slot i ≠ .forcing := by
  refine ⟨?_, nofun⟩
  rcases hm : m.counter with _ | k
  · simp [Store.depth, Store.newMachine, Store.empty, hm]
  · simp [Store.depth, Store.newMachine, Store.empty, hm]

variable [Variable V]

/-- Evaluating an expression, resuming a suspension, reading a slot, rendering a value and
comparing two values all end, whether they succeed or fail, with every machine at the depth it
was at before and with the same slots being evaluated by need. After a top-level run, every
machine is at depth zero and no slot is being evaluated. -/
theorem restores_evaluation :
    (∀ n m env (e : Expr V L), Restores (Machine.eval n m env e)) ∧
    (∀ n (x : Suspension V L), Restores (Eval.resume (Machine.eval n) x)) ∧
    (∀ n label i, Restores (Eval.force (Machine.eval n : Evaluator V L) label i)) ∧
    (∀ n (v : Value V L), Restores (v.render n)) ∧
    (∀ n k (v w : Value V L), Restores (Eval.equals (Machine.eval n) k v w)) ∧
    ∀ n config (e : Expr V L) r s, evaluate n config e = some (r, s) →
      (∀ m, s.depth m = 0) ∧ ∀ i, s.slot i ≠ .forcing := by
  refine ⟨fun n m env e => (Tidies.eval n m env e).restores,
    fun n x => (Tidies.resume (Tidies.eval n) x).restores,
    fun n label i => (Tidies.force (Tidies.eval n) label i).restores,
    fun n v => (Tidies.render n v).restores,
    fun n k v w => (Tidies.equals (Tidies.eval n) k v w).restores, fun n config e r s ho => ?_⟩
  have hbalanced := (Tidies.eval n _ _ e _ r s (evaluate_eq_outcome n config e ▸ ho)).balanced
  refine ⟨fun m => ?_, fun i => ?_⟩
  · rw [hbalanced.depth]
    exact (Store.idle_newMachine config m 0).1
  · rw [Ne, hbalanced.forcing]
    exact (Store.idle_newMachine config ⟨config, 0⟩ i).2

/-- `letrec x := x; in x` -/
def selfReference : NamedExpr :=
  let x : Ident := ⟨"x", .synthetic⟩
  .letIn .synthetic .recursive [(x, .mkVar x)] () (.mkVar x)

/-- The slot of `x` is read while it is being evaluated, one level deep; the failure takes back
both. -/
theorem restores_selfReference : ∃ s,
    evaluate 4 ⟨.need, .value, 10⟩ selfReference = some (.error (.forwardReference "x"), s) ∧
      (∀ m, s.depth m = 0) ∧ ∀ i, s.slot i ≠ .forcing := by
  have hfails : ∃ s, evaluate 4 ⟨.need, .value, 10⟩ selfReference =
      some (.error (.forwardReference "x"), s) := ⟨_, rfl⟩
  obtain ⟨s, hs⟩ := hfails
  obtain ⟨-, -, -, -, -, hrun⟩ := restores_evaluation (V := Ident) (L := Unit)
  exact ⟨s, hs, hrun 4 _ selfReference _ s hs⟩

end Mapling
