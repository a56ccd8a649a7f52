import Mapling.Proofs.Eval.Grounded
import Mapling.Proofs.Scope.Lexical
import Mathlib

/-! # Evaluation that comes to an end

A run goes on forever only by nesting calls and suspensions without end, and the depth limit stops
that. What is left are the walks over a value: comparing it, and writing its text for a message.
They end if the value is grounded, and evaluation without assignments and with eager pairs yields
grounded values only.

So each operation comes to an end (`Halts`), by induction on how many levels the limit leaves, and
within a level on the expression (`evaluable`). -/

namespace Mapling

variable {V L : Type} {e : Expr V L} {i : Nat} {args : List (Expr V L)}

/-! ## Computations that come to an end -/

/-- From the sound store `s` the computations come to the same end for every number that is large
enough, in a sound store that has grown from `s0`, and `Q` holds of the result if there is one. -/
def Halts {α : Type} (m : Machine) (s0 s : Store V L) (x : Nat → Eval V L α)
    (Q : α → Store V L → Prop) : Prop :=
  ∃ o s', Ends (fun n => outcome (x n) s) (o, s') ∧ s'.Sound m ∧ s0.Grows s' ∧
    ∀ a, o = .ok a → Q a s'

namespace Halts

variable {α β : Type} {m : Machine} {s0 s s' : Store V L} {Q : α → Store V L → Prop}
  {Q' : β → Store V L → Prop}
variable {x : Nat → Eval V L α} {f : Nat → α → Eval V L β} {v : Value V L}

theorem of_outcome {o : Except EvalError α} (ho : ∀ n, outcome (x n) s = some (o, s'))
    (hs : s'.Sound m) (hgrows : s0.Grows s') (hQ : ∀ a, o = .ok a → Q a s') : Halts m s0 s x Q :=
  ⟨o, s', ⟨0, fun n _ => ho n⟩, hs, hgrows, hQ⟩

theorem pure (hs : s.Sound m) {a : α} (hQ : Q a s) : Halts m s s (fun _ => pure a) Q :=
  of_outcome (fun _ => rfl) hs (.refl s) (fun b hb => by cases hb; exact hQ)

theorem throw (hs : s.Sound m) (e : EvalError) : Halts m s s (fun _ => throw e) Q :=
  of_outcome (fun _ => rfl) hs (.refl s) (fun b hb => by cases hb)

theorem ofExcept (hs : s.Sound m) (o : Except EvalError α) :
    Halts m s s (fun _ => Eval.ofExcept o) (fun _ s' => s' = s) := by
  cases o with
  | ok a => exact pure hs rfl
  | error e => exact throw hs e

theorem since (hgrows : s0.Grows s) (h : Halts m s s x Q) : Halts m s0 s x Q := by
  obtain ⟨o, s', hends, hs', hgrows', hQ⟩ := h
  exact ⟨o, s', hends, hs', hgrows.trans hgrows', hQ⟩

theorem mono {R : α → Store V L → Prop} (h : Halts m s0 s x Q) (hR : ∀ a s', Q a s' → R a s') :
    Halts m s0 s x R := by
  obtain ⟨o, s', hends, hs', hgrows, hQ⟩ := h
  exact ⟨o, s', hends, hs', hgrows, fun a ho => hR a s' (hQ a ho)⟩

theorem grown (h : Halts m s0 s x Q) : Halts m s0 s x (fun a s' => Q a s' ∧ s0.Grows s') := by
  obtain ⟨o, s', hends, hs', hgrows, hQ⟩ := h
  exact ⟨o, s', hends, hs', hgrows, fun a ho => ⟨hQ a ho, hgrows⟩⟩

/-- One level of the recursion. -/
theorem succ (h : Halts m s0 s (fun n => x (n + 1)) Q) : Halts m s0 s x Q := by
  obtain ⟨o, s', hends, hrest⟩ := h
  exact ⟨o, s', hends.succ, hrest⟩

/-- One thing after the other comes to an end if both do. -/
theorem bind_since (h : Halts m s0 s x Q)
    (hf : ∀ a s', s'.Sound m → s0.Grows s' → Q a s' → Halts m s0 s' (fun n => f n a) Q') :
    Halts m s0 s (fun n => x n >>= f n) Q' := by
  obtain ⟨o, s1, ⟨N, hN⟩, hs1, hgrows1, hQ⟩ := h
  cases o with
  | error e =>
    refine ⟨.error e, s1, ⟨N, fun n hn => outcome_bind_of_error _ (hN n hn)⟩, hs1, hgrows1, ?_⟩
    intro b hb
    cases hb
  | ok a =>
    obtain ⟨o', s', ⟨N', hN'⟩, hrest⟩ := hf a s1 hs1 hgrows1 (hQ a rfl)
    refine ⟨o', s', ⟨max N N', fun n hn => ?_⟩, hrest⟩
    have h1 := hN n (by omega)
    have h2 := hN' n (by omega)
    dsimp only at h1 h2 ⊢
    rw [outcome_bind_of_ok _ h1, h2]

theorem bind (h : Halts m s s x Q)
    (hf : ∀ a s', s'.Sound m → s.Grows s' → Q a s' → Halts m s' s' (fun n => f n a) Q') :
    Halts m s s (fun n => x n >>= f n) Q' :=
  h.bind_since (fun a s' hs' hgrows hQ => since hgrows (hf a s' hs' hgrows hQ))

/-- After a step that does not depend on the number. -/
theorem step {y : Eval V L α} {a : α} {t : Store V L} (hy : outcome y s = some (.ok a, t))
    (h : Halts m s0 t (fun n => f n a) Q') : Halts m s0 s (fun n => y >>= f n) Q' := by
  obtain ⟨o, s', ⟨N, hN⟩, hrest⟩ := h
  refine ⟨o, s', ⟨N, fun n hn => ?_⟩, hrest⟩
  have hlater := hN n hn
  dsimp only at hlater ⊢
  rw [outcome_bind_of_ok _ hy, hlater]

/-- The value of a grounded value's text is found. -/
theorem shown (hs : s.Sound m) (hv : Grounded s v) :
    Halts m s s (fun n => Eval.shown n v) (fun _ s' => s' = s) := by
  obtain ⟨⟨t, N, hN⟩, -⟩ := hv.text
  refine ⟨.ok t, s, ⟨N, fun n hn => ?_⟩, hs, .refl s, fun _ _ => rfl⟩
  have htext := hN n hn
  dsimp only at htext ⊢
  rw [Eval.outcome_shown, htext]
  rfl

/-- Failing with a message that shows a value. -/
theorem throwShown (hs : s.Sound m) (hv : Grounded s v) (e : String → EvalError) :
    Halts m s s (fun n => do MonadExcept.throw (e (← Eval.shown n v))) Q :=
  (shown hs hv).bind (fun _ _ hs' _ _ => throw hs' _)

theorem mismatch (hs : s.Sound m) (hv : Grounded s v) (op : String) :
    Halts m s s (fun n => Eval.mismatch n op v) Q := throwShown hs hv _

end Halts

/-- At depth `d`, evaluating the expression comes to an end with a grounded value. -/
def Evaluable [Variable V] (m : Machine) (d : Nat) (env : Env) (e : Expr V L) : Prop :=
  ∀ s : Store V L, s.Sound m → s.depth m = d →
    Halts m s s (fun n => m.eval n env e) (fun v s' => Grounded s' v)

/-- If the limit leaves a level below the depth `d`, everything without assignments can be
evaluated there. -/
def EvaluableBelow (V L : Type) [Variable V] (m : Machine) (d : Nat) : Prop :=
  d < m.config.maxDepth → ∀ env (e : Expr V L), e.isAssignFree = true → Evaluable m (d + 1) env e

namespace Halts

variable [Variable V] {α : Type} {m : Machine} {d : Nat} {s s' : Store V L} {env : Env}

/-! ### Slots -/

/-- Either the limit is reached, or there is a level below it. -/
theorem nested (hbelow : EvaluableBelow V L m d) (hs : s.Sound m) (hd : s.depth m = d) (env : Env)
    (he : e.isAssignFree = true) :
    Halts m s s (fun n => Eval.nested m (m.eval n env e)) (fun v s' => Grounded s' v) := by
  unfold Eval.nested Eval.enter
  simp only [bind_assoc]
  refine step (outcome_get s) ?_
  rw [hd]
  by_cases hlt : d < m.config.maxDepth
  · simp only [hlt, if_true]
    refine step (outcome_modify _ s) ?_
    obtain ⟨o, s', ⟨N, hN⟩, hs', hgrows, hv⟩ :=
      hbelow hlt env e he (s.setDepth m (d + 1)) (hs.setDepth _) (hs.depth_setDepth _)
    refine ⟨o, s'.setDepth m (s'.depth m - 1), ⟨N, fun n hn => ?_⟩, hs'.setDepth _, ?_,
      fun v ho => (hv v ho).mono (.setDepth s' m _)⟩
    · have hrun := hN n hn
      dsimp only at hrun ⊢
      rw [Eval.outcome_andThen, hrun]
      rfl
    · refine ⟨Store.depths_setDepth_pred (hd.symm ▸ hgrows.depths), hgrows.size, hgrows.slots,
        hgrows.cells⟩
  · simp only [hlt, if_false]
    exact of_outcome (fun _ => rfl) hs (.refl s) (fun a ha => by cases ha)

/-- Forcing a slot ends, since what it holds is evaluated one level down. -/
theorem force (hbelow : EvaluableBelow V L m d) (hs : s.Sound m) (hd : s.depth m = d)
    (label : String) (i : Nat) :
    Halts m s s (fun n => Eval.force (Machine.eval n) label i) (fun v s' => Grounded s' v) := by
  refine step (outcome_get s) ?_
  have hslot := hs.slots i
  cases hi : s.slot i with
  | ready v =>
    rw [hi] at hslot
    exact pure hs hslot
  | uninit | forcing => exact throw hs _
  | byName x =>
    rw [hi] at hslot
    obtain ⟨rfl, hx⟩ := hslot
    exact nested hbelow hs hd x.env hx
  | byNeed x =>
    rw [hi] at hslot
    obtain ⟨hm, hx⟩ := hslot
    have hlt : i < s.slots.size := Store.lt_size_of_slot (by rw [hi]; rintro ⟨⟩)
    have hnot : ∀ v, s.slot i ≠ .ready v := fun v hv => by rw [hi] at hv; cases hv
    refine step (outcome_modify _ s) ?_
    have hs1 : (s.setSlot i .forcing).Sound m := hs.setSlot hnot trivial
    obtain ⟨o, s2, ⟨N, hN⟩, hs2, hgrows, hv⟩ := nested hbelow hs1 hd x.env hx
    -- the slot is marked while its suspension is evaluated, so it is marked still
    have hmark : s2.slot i = .forcing := by
      have hmarked : (s.setSlot i .forcing).slot i = .forcing := by
        rw [Store.slot_setSlot, if_pos ⟨rfl, hlt⟩]
      rcases hgrows.slots i (by rwa [Store.size_setSlot]) with heq | ⟨y, hy⟩
      · exact heq.trans hmarked
      · rw [hmarked] at hy
        cases hy
    have hnot2 : ∀ v, s2.slot i ≠ .ready v := fun v hv => by rw [hmark] at hv; cases hv
    have hsettled : (Eval.settled x o).Sound m s2 := by
      cases o with
      | ok v => exact hv v rfl
      | error e => exact ⟨hm, hx⟩
    refine ⟨o, s2.setSlot i (Eval.settled x o), ⟨N, fun n hn => ?_⟩,
      hs2.setSlot hnot2 hsettled, ?_, fun v ho => (hv v ho).mono (.setSlot hnot2 _)⟩
    · have hrun := hN n hn
      dsimp only at hrun ⊢
      rw [Eval.outcome_settle, Eval.resume, hm, hrun]
      rfl
    · have hsize := hgrows.size
      rw [Store.size_setSlot] at hsize
      refine ⟨hgrows.depths, by rwa [Store.size_setSlot], fun j hj => ?_, hgrows.cells⟩
      by_cases hij : i = j
      · subst hij
        exact .inr ⟨x, hi⟩
      · have hkept := hgrows.slots j (by rwa [Store.size_setSlot])
        rw [Store.slot_setSlot, if_neg (fun h => hij h.1)] at hkept
        rwa [Store.slot_setSlot, if_neg (fun h => hij h.1)]

variable {v w : Value V L} {es : List (Expr V L)} {l r : Expr V L}

omit [Variable V] in
/-- A part of a grounded pair is read at once. -/
theorem forceHead (hs : s.Sound m) (ev : Nat → Evaluator V L) (hi : s.slot i = .ready v) :
    Halts m s s (fun n => Eval.forceHead (ev n) i) (fun w s' => w = v ∧ s' = s) := by
  refine of_outcome (o := .ok v) (fun n => ?_) hs (.refl s) (fun w hw => ?_)
  · rw [Eval.forceHead, Eval.force, outcome_bind_of_ok _ (outcome_get s), hi]
    rfl
  · cases hw
    exact ⟨rfl, rfl⟩

omit [Variable V] in
theorem forceTail (hs : s.Sound m) (ev : Nat → Evaluator V L) (hi : s.slot i = .ready v)
    (hv : Grounded s v) :
    Halts m s s (fun n => Eval.forceTail n (ev n) i) (fun w s' => w = v ∧ s' = s) := by
  have hforce : ∀ n, outcome (Eval.force (ev n) "pair tail" i) s = some (.ok v, s) := by
    intro n
    rw [Eval.force, outcome_bind_of_ok _ (outcome_get s), hi]
    rfl
  refine bind (of_outcome (Q := fun w s' => w = v ∧ s' = s) hforce hs (.refl s)
    (fun w hw => by cases hw; exact ⟨rfl, rfl⟩)) ?_
  rintro w s' hs' - ⟨rfl, rfl⟩
  split
  · exact pure hs' ⟨rfl, rfl⟩
  · exact throwShown hs' hv _

/-! ### Operators -/

omit [Variable V] in
/-- Values that are not both pairs are compared at once. -/
theorem equals_of_atom (hs : s.Sound m) (ev : Nat → Evaluator V L)
    (h : ∀ n, Eval.equals (ev (n + 1)) (n + 1) v w = Pure.pure (Eval.sameAtom v w)) :
    Halts m s s (fun n => Eval.equals (ev n) n v w) (fun _ s' => s' = s) := by
  refine succ (of_outcome (o := .ok (Eval.sameAtom v w)) (fun n => ?_) hs (.refl s)
    (fun _ _ => rfl))
  rw [h n]
  rfl

omit [Variable V] in
/-- Comparing grounded values evaluates nothing. The induction is on the way down the first. -/
theorem equals (hs : s.Sound m) (hv : Grounded s v) (ev : Nat → Evaluator V L) (hw : Grounded s w) :
    Halts m s s (fun n => Eval.equals (ev n) n v w) (fun _ s' => s' = s) := by
  induction hv generalizing ev w with
  | @pair h t a b hh ht ha hb iha ihb =>
    cases hw with
    | @pair h' t' a' b' hh' ht' ha' hb' =>
      refine succ ?_
      simp only [Eval.equalsBy]
      split
      · exact pure hs rfl
      · refine (forceHead hs _ hh).bind ?_
        rintro _ _ - - ⟨rfl, rfl⟩
        refine (forceHead hs _ hh').bind ?_
        rintro _ _ - - ⟨rfl, rfl⟩
        refine (iha (fun n => ev (n + 1)) ha').bind ?_
        rintro same _ - - rfl
        cases same with
        | false => exact pure hs rfl
        | true =>
          refine (forceTail hs (fun n => ev (n + 1)) ht hb).bind ?_
          rintro _ _ - - ⟨rfl, rfl⟩
          refine (forceTail hs (fun n => ev (n + 1)) ht' hb').bind ?_
          rintro _ _ - - ⟨rfl, rfl⟩
          exact ihb (fun n => ev (n + 1)) hb'
    | _ => exact equals_of_atom hs ev (fun n => rfl)
  | _ => exact equals_of_atom hs ev (fun n => by simp [Eval.equalsBy])

omit [Variable V] in
theorem unary (hs : s.Sound m) (op : UnaryOp) (hv : Grounded s v) :
    Halts m s s (fun n => Eval.unary n op v) (fun v s' => Grounded s' v) := by
  unfold Eval.unary
  split
  · exact (ofExcept hs _).bind (fun k _ hs' _ _ => pure hs' (.int k))
  · exact pure hs (.bool _)
  · cases hv with
    | ref hi hv => exact step (outcome_get s) (pure hs hv)
  · obtain ⟨hs', hgrows, href⟩ := hs.newRef hv
    exact of_outcome (fun _ => outcome_modifyGet _ s) hs' hgrows
      (fun a ha => by cases ha; exact href)
  · exact mismatch hs hv _

omit [Variable V] in
theorem arithmetic (hs : s.Sound m) (op : BinaryOp) (hv : Grounded s v) (hw : Grounded s w) :
    Halts m s s (fun n => Eval.arithmetic n op v w) (fun v s' => Grounded s' v) := by
  unfold Eval.arithmetic
  split
  · refine (ofExcept hs _).bind (fun r _ hs' _ _ => ?_)
    cases r with
    | int k => exact pure hs' (.int k)
    | bool b => exact pure hs' (.bool b)
  · exact mismatch hs hw _
  · exact mismatch hs hv _

/-- Two operands one after the other. -/
theorem both (hl : Evaluable m d env l) (hr : Evaluable m d env r) (hs : s.Sound m)
    (hd : s.depth m = d) {f : Nat → Value V L → Value V L → Eval V L α} {Q : α → Store V L → Prop}
    (hf : ∀ v w s', s'.Sound m → Grounded s' v → Grounded s' w →
      Halts m s' s' (fun n => f n v w) Q) :
    Halts m s s (fun n => do f n (← m.eval n env l) (← m.eval n env r)) Q := by
  refine (hl s hs hd).bind (fun v s1 hs1 hgrows1 hv => ?_)
  refine (hr s1 hs1 ((hgrows1.depth m).trans hd)).bind (fun w s2 hs2 hgrows2 hw => ?_)
  exact hf v w s2 hs2 (hv.mono hgrows2.bears) hw

theorem logical (hl : Evaluable m d env l) (hr : Evaluable m d env r) (hs : s.Sound m)
    (hd : s.depth m = d) (op : BinaryOp) (decisive : Bool) :
    Halts m s s (fun n => Eval.logical n (Machine.eval n) m env op decisive l r)
      (fun v s' => Grounded s' v) := by
  refine (hl s hs hd).bind (fun v s1 hs1 hgrows1 hv => ?_)
  split
  · split
    · exact pure hs1 hv
    · refine (hr s1 hs1 ((hgrows1.depth m).trans hd)).bind (fun w s2 hs2 _ hw => ?_)
      split
      · exact pure hs2 hw
      · exact mismatch hs2 hw _
  · exact mismatch hs1 hv _

theorem binary (hl : Evaluable m d env l) (hr : Evaluable m d env r) (hs : s.Sound m)
    (hd : s.depth m = d) {op : BinaryOp} (hop : op ≠ .assign) :
    Halts m s s
      (fun n => Eval.binary (Eval.equals (Machine.eval n) n) n (Machine.eval n) m env op l r)
      (fun v s' => Grounded s' v) := by
  cases op with
  | assign => exact absurd rfl hop
  | and => exact logical hl hr hs hd .and false
  | or => exact logical hl hr hs hd .or true
  | eq | ne =>
    exact both hl hr hs hd (fun v w s' hs' hv hw =>
      (equals hs' hv Machine.eval hw).bind (fun _ _ hs'' _ _ => pure hs'' (.bool _)))
  | _ => exact both hl hr hs hd (fun v w s' hs' hv hw => arithmetic hs' _ hv hw)

/-! ### Application -/

theorem cons (hm : m.config.cons = .value) {h t : Expr V L} (hh : Evaluable m d env h)
    (ht : Evaluable m d env t) (hs : s.Sound m) (hd : s.depth m = d) :
    Halts m s s (fun n => Eval.cons n (Machine.eval n) m env h t) (fun v s' => Grounded s' v) := by
  unfold Eval.cons
  simp only [hm, Eval.defer_value, bind_assoc, pure_bind]
  refine (hh s hs hd).bind (fun v s1 hs1 hgrows1 hv => ?_)
  refine (ht s1 hs1 ((hgrows1.depth m).trans hd)).bind (fun w s2 hs2 hgrows2 hw => ?_)
  split
  · obtain ⟨hs3, hgrows3, hpair⟩ := hs2.newPair (hv.mono hgrows2.bears) hw
    exact of_outcome (fun _ => outcome_modifyGet _ s2) hs3 hgrows3
      (fun a ha => by cases ha; exact hpair)
  · exact throwShown hs2 hw _

omit [Variable V] in
theorem select (hs : s.Sound m) (p : Prim) {part : Nat → Nat → Nat → Eval V L (Value V L)}
    (hv : Grounded s v)
    (hpart : ∀ h t, v = .pair h t → Halts m s s (fun n => part n h t) (fun v s' => Grounded s' v)) :
    Halts m s s (fun n => Eval.select n p (part n) v) (fun v s' => Grounded s' v) := by
  unfold Eval.select
  split
  · exact hpart _ _ rfl
  · exact throw hs _
  · exact throwShown hs hv _

theorem primitive (hs : s.Sound m) (p : Prim) (hv : Grounded s v) :
    Halts m s s (fun n => Eval.primitive n (Machine.eval n) p v) (fun v s' => Grounded s' v) := by
  cases p with
  | arity =>
    unfold Eval.primitive
    dsimp only
    split
    · exact pure hs (.int _)
    · exact pure hs (.int _)
    · exact mismatch hs hv _
  | first =>
    refine select hs .first hv (fun h t heq => ?_)
    subst heq
    cases hv with
    | pair hh ht hv hw =>
      refine (forceHead hs Machine.eval hh).mono ?_
      rintro _ _ ⟨rfl, rfl⟩
      exact hv
  | rest =>
    refine select hs .rest hv (fun h t heq => ?_)
    subst heq
    cases hv with
    | pair hh ht hv hw =>
      refine (forceTail hs Machine.eval ht hw).mono ?_
      rintro _ _ ⟨rfl, rfl⟩
      exact hw
  | cons => exact mismatch hs hv _
  | _ => exact pure hs (.bool _)

/-- Applying a primitive ends if evaluating its arguments does. -/
theorem applyPrim (hm : m.config.cons = .value) (p : Prim) (hargs : ∀ e ∈ args, Evaluable m d env e)
    (hs : s.Sound m) (hd : s.depth m = d) :
    Halts m s s (fun n => Eval.applyPrim n (Machine.eval n) m env p args)
      (fun v s' => Grounded s' v) := by
  have hone : ∀ e, Evaluable m d env e → Halts m s s
      (fun n => do Eval.primitive n (Machine.eval n) p (← m.eval n env e))
      (fun v s' => Grounded s' v) :=
    fun e he => (he s hs hd).bind (fun v s' hs' _ hv => primitive hs' p hv)
  rcases args with _ | ⟨e1, _ | ⟨e2, _ | ⟨e3, es⟩⟩⟩
  · cases p <;> exact throw hs _
  · cases p with
    | cons => exact throw hs _
    | _ => exact hone e1 (hargs e1 (.head _))
  · cases p with
    | cons => exact cons hm (hargs e1 (.head _)) (hargs e2 (.tail _ (.head _))) hs hd
    | _ => exact throw hs _
  · cases p <;> exact throw hs _

/-- What an expression is bound to is sound. -/
theorem defer (he : e.isAssignFree = true) (hev : Evaluable m d env e) (hs : s.Sound m)
    (hd : s.depth m = d) (policy : Policy) :
    Halts m s s (fun n => Eval.defer (Machine.eval n) m env policy e)
      (fun x s' => x.Sound m s') := by
  have hready : Halts m s s (fun n => do return Slot.ready (← m.eval n env e))
      (fun x s' => x.Sound m s') :=
    (hev s hs hd).bind (fun v s' hs' _ hv => pure hs' hv)
  unfold Eval.defer
  split
  · exact hready
  · cases policy with
    | value => exact hready
    | name | need => exact pure hs ⟨rfl, he⟩

/-- Expressions are bound to the slots of a frame that is newer than the store `s0`. The slots
that are left are empty until their turn comes. -/
theorem bindEach {s0 : Store V L} {bs : List Binding}
    (hes : ∀ e ∈ es, e.isAssignFree = true ∧ Evaluable m d env e) (hs : s.Sound m)
    (hgrows : s0.Grows s) (hd : s.depth m = d)
    (hbs : ∀ b ∈ bs, s0.slots.size ≤ b.slot ∧ b.slot < s.slots.size ∧ s.slot b.slot = .uninit)
    (hnodup : (bs.map Binding.slot).Nodup) :
    Halts m s0 s (fun n => Eval.bindEach (Machine.eval n) m env bs es) (fun _ _ => True) := by
  induction bs generalizing es s with
  | nil => cases es <;> exact since hgrows (pure hs trivial)
  | cons b bs ih =>
    cases es with
    | nil => exact since hgrows (pure hs trivial)
    | cons e es =>
      obtain ⟨he, hev⟩ := hes e (.head _)
      obtain ⟨hnew, -⟩ := hbs b (.head _)
      obtain ⟨hb, hnodup⟩ := List.nodup_cons.mp hnodup
      refine (since hgrows (defer he hev hs hd m.config.binding).grown).bind_since ?_
      rintro x s1 hs1 - ⟨hx, hgrows1⟩
      -- evaluating fills no slot that is empty
      have hstill : ∀ b' ∈ b :: bs, s1.slot b'.slot = .uninit := by
        intro b' hb'
        obtain ⟨-, hlt', hempty'⟩ := hbs b' hb'
        rcases hgrows1.slots _ hlt' with heq | ⟨x, hx⟩
        · exact heq.trans hempty'
        · rw [hempty'] at hx
          cases hx
      refine step (outcome_modify _ s1) ?_
      have hnot : ∀ v, s1.slot b.slot ≠ .ready v := fun v hv => by
        rw [hstill b (.head _)] at hv
        cases hv
      refine ih (fun e he => hes e (.tail _ he)) (hs1.setSlot hnot hx) ?_
        ((hgrows1.depth m).trans hd) (fun b' hb' => ?_) hnodup
      · have hgrows2 := hgrows.trans hgrows1
        refine ⟨hgrows2.depths, by rw [Store.size_setSlot]; exact hgrows2.size,
          fun i hi => ?_, hgrows2.cells⟩
        rw [Store.slot_setSlot, if_neg (by omega)]
        exact hgrows2.slots i hi
      · obtain ⟨hnew', hlt', -⟩ := hbs b' (.tail _ hb')
        have hne : b.slot ≠ b'.slot := fun heq => hb (heq ▸ List.mem_map_of_mem hb')
        refine ⟨hnew', ?_, ?_⟩
        · rw [Store.size_setSlot]
          exact hlt'.trans_le hgrows1.size
        · rw [Store.slot_setSlot, if_neg (fun h => hne h.1)]
          exact hstill b' (.tail _ hb')

/-- Making a frame, binding its slots and going on. -/
theorem bindFrame (scope : Frame → Env) {names : List String}
    (hes : ∀ frame, ∀ e ∈ es, e.isAssignFree = true ∧ Evaluable m d (scope frame) e)
    (hs : s.Sound m) (hd : s.depth m = d) {f : Nat → Frame → Eval V L α}
    {Q : α → Store V L → Prop}
    (hf : ∀ frame s', s'.Sound m → s'.depth m = d → Halts m s' s' (fun n => f n frame) Q) :
    Halts m s s (fun n => do
      let frame ← EvalOps.newFrame names
      Eval.bindEach (Machine.eval n) m (scope frame) frame es
      f n frame) Q := by
  obtain ⟨hs1, hgrows1⟩ := hs.newFrame names
  refine step (a := (s.newFrame names).1) (t := (s.newFrame names).2) rfl ?_
  refine bind_since (bindEach (hes _) hs1 hgrows1 ((hgrows1.depth m).trans hd) (fun b hb => ?_) ?_)
    (fun _ s' hs' hgrows' _ => since hgrows' (hf _ s' hs' ((hgrows'.depth m).trans hd)))
  · exact ⟨(Store.size_le_slot_newFrame hb).1, Store.uninit_newFrame b hb⟩
  · exact s.nodup_newFrame names

theorem applyClosure (hbelow : EvaluableBelow V L m d) (f : Expr V L) {c : Closure V L}
    (hc : c.body.isAssignFree = true)
    (hargs : ∀ e ∈ args, e.isAssignFree = true ∧ Evaluable m d env e) (hs : s.Sound m)
    (hd : s.depth m = d) :
    Halts m s s (fun n => Eval.applyClosure (Machine.eval n) m env f c args)
      (fun v s' => Grounded s' v) := by
  unfold Eval.applyClosure Eval.applyClosureBy
  split
  · exact throw hs _
  · exact bindFrame (fun _ => env) (fun _ => hargs) hs hd
      (fun frame s' hs' hd' => nested hbelow hs' hd' _ hc)

/-! ### Expressions -/

theorem sequence (hes : ∀ e ∈ es, Evaluable m d env e) (hs : s.Sound m) (hd : s.depth m = d)
    (hv : Grounded s v) :
    Halts m s s (fun n => Eval.sequence (Machine.eval n) m env v es)
      (fun v s' => Grounded s' v) := by
  induction es generalizing v s with
  | nil => exact pure hs hv
  | cons e es ih =>
    refine (hes e (.head _) s hs hd).bind (fun w s' hs' hgrows hw => ?_)
    exact ih (fun e he => hes e (.tail _ he)) hs' ((hgrows.depth m).trans hd) hw

end Halts

/-- By induction on how many levels are left below the depth, and then on the expression. -/
theorem evaluable [Variable V] {m : Machine} (hm : m.config.cons = .value) (d : Nat) (env : Env)
    (e : Expr V L) (he : e.isAssignFree = true) : Evaluable m d env e := by
  induction hk : m.config.maxDepth - d using Nat.strong_induction_on generalizing d env e with
  | _ k ihk =>
    have hbelow : EvaluableBelow V L m d :=
      fun hlt env e he => ihk (m.config.maxDepth - (d + 1)) (by omega) (d + 1) env e he rfl
    clear ihk
    induction e using Expr.induction generalizing env with
    | int sp k => exact fun s hs hd => .succ (.pure hs (.int k))
    | bool sp b => exact fun s hs hd => .succ (.pure hs (.bool b))
    | null sp => exact fun s hs hd => .succ (.pure hs .null)
    | prim sp p => exact fun s hs hd => .succ (.pure hs (.prim p))
    | var sp x =>
      refine fun s hs hd => .succ ?_
      simp only [Machine.eval, Eval.stepBy]
      split
      · exact .force hbelow hs hd _ _
      · exact .throw hs _
    | unary sp op e ih =>
      refine fun s hs hd => .succ ((ih env he s hs hd).bind (fun v s' hs' _ hv => ?_))
      exact .unary hs' op hv
    | binary sp op l r ihl ihr =>
      simp only [Expr.isAssignFree, Bool.and_eq_true, bne_iff_ne] at he
      exact fun s hs hd => .succ (.binary (ihl env he.1.2) (ihr env he.2) hs hd he.1.1)
    | app sp f args ihf ihargs =>
      simp only [Expr.isAssignFree, Bool.and_eq_true, Expr.allAssignFree_iff] at he
      have hargs : ∀ e ∈ args, e.isAssignFree = true ∧ Evaluable m d env e :=
        fun e hmem => ⟨he.2 e hmem, ihargs e hmem env (he.2 e hmem)⟩
      refine fun s hs hd => .succ ((ihf env he.1 s hs hd).bind (fun v s' hs' hgrows hv => ?_))
      have hd' := (hgrows.depth m).trans hd
      cases hv with
      | closure id hbody => exact .applyClosure hbelow f hbody hargs hs' hd'
      | prim p => exact .applyPrim hm p (fun e hmem => (hargs e hmem).2) hs' hd'
      | int k => exact .throwShown hs' (.int k) _
      | bool b => exact .throwShown hs' (.bool b) _
      | null => exact .throwShown hs' .null _
      | unit => exact .throwShown hs' .unit _
      | ref hi hv => exact .throwShown hs' (.ref hi hv) _
      | pair hh ht hv hw => exact .throwShown hs' (.pair hh ht hv hw) _
    | map sp params layout body ih =>
      intro s hs hd
      obtain ⟨hs', hgrows⟩ := hs.newClosure ⟨params, layout, body, env⟩
      exact .succ (.of_outcome (fun _ => outcome_modifyGet _ s) hs' hgrows
        (fun v hv => by cases hv; exact .closure _ he))
    | cond sp t a b iht iha ihb =>
      simp only [Expr.isAssignFree, Bool.and_eq_true] at he
      refine fun s hs hd => .succ ((iht env he.1.1 s hs hd).bind (fun v s' hs' hgrows hv => ?_))
      have hd' := (hgrows.depth m).trans hd
      split
      · exact iha env he.1.2 s' hs' hd'
      · exact ihb env he.2 s' hs' hd'
      · exact .mismatch hs' hv _
    | letIn sp kind defs layout body ihdefs ihbody =>
      simp only [Expr.isAssignFree, Bool.and_eq_true, Expr.defsAssignFree_iff] at he
      have hdefs : ∀ env, ∀ e ∈ Expr.defValues defs,
          e.isAssignFree = true ∧ Evaluable m d env e := by
        intro env e hmem
        obtain ⟨d, hd, rfl⟩ := List.mem_map.mp hmem
        exact ⟨he.1 d hd, ihdefs d hd env (he.1 d hd)⟩
      intro s hs hd
      exact .succ (.bindFrame (fun frame => kind.scope frame env) (fun _ => hdefs _) hs hd
        (fun frame s' hs' hd' => ihbody (frame :: env) he.2 s' hs' hd'))
    | block sp es ihes =>
      simp only [Expr.isAssignFree, Expr.allAssignFree_iff] at he
      exact fun s hs hd => .succ
        (.sequence (fun e hmem => ihes e hmem env (he e hmem)) hs hd .unit)

/-- In a new store nothing is there that could be unsound. -/
theorem Store.sound_newMachine (config : Config) :
    (Store.empty.newMachine config : Machine × Store V L).2.Sound ⟨config, 0⟩ := by
  refine ⟨Nat.zero_lt_one, fun i => ?_⟩
  rw [slot_eq_uninit (Nat.zero_le i)]
  trivial

theorem exists_ends_evaluate [Variable V] {config : Config} (hcons : config.cons = .value)
    (he : e.isAssignFree = true) : ∃ o, Ends (fun n => evaluate n config e) o := by
  obtain ⟨o, s, hends, -⟩ := evaluable (m := ⟨config, 0⟩) hcons 0 [] e he _
    (Store.sound_newMachine config) rfl
  exact ⟨(o, s), hends⟩

end Mapling
