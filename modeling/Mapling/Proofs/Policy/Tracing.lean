import Mapling.Proofs.Policy.Holding

/-! # Runs give expressions their meaning

Whatever a pure program evaluates to under some policies is what it means (`Traced.eval`), if what
it finds by comparing values is what they mean as well (`ComparisonTraced`). -/

namespace Mapling

variable {V L : Type} [Variable V] {σ : Eagerness} {m : Machine} {B B' : Bindings V L}
  {s s' s'' : Store V L} {env : Env} {i n : Nat} {v : Value V L} {seen args : List (Expr V L)}
  {β : Type} {e1 e2 l r : Expr V L} {op : BinaryOp}

/-! ## Tracing computations -/

def Bindings.Gives (σ : Eagerness) (B : Bindings V L) (v : Value V L) : Prop :=
  ∃ h env e, Means σ B h env e v

theorem Reads.gives {h : Nat} (hr : Reads σ B h i v) : B.Gives σ v := by
  obtain ⟨-, -, -, -, hv⟩ := hr
  exact ⟨_, _, _, hv⟩

theorem Bindings.Gives.mono (hB : B <+: B') (hv : B.Gives σ v) : B'.Gives σ v := by
  obtain ⟨h, env, e, hv⟩ := hv
  exact ⟨h, env, e, hv.mono hB le_rfl⟩

/-- If the computation succeeds, the store afterwards is traced by more bindings, no slot has been
opened, and `Q` holds of the result. -/
def Traced {α : Type} (σ : Eagerness) (m : Machine) (B : Bindings V L) (s : Store V L)
    (x : Eval V L α) (Q : Bindings V L → α → Prop) : Prop :=
  ∀ a s', outcome x s = some (.ok a, s') →
    ∃ B', B <+: B' ∧ Traces σ B' m s' ∧ Settles m s s' ∧ Q B' a

def EvaluatorTraced (σ : Eagerness) (m : Machine) (ev : Evaluator V L) : Prop :=
  ∀ B s env e, e.isPure = true → Traces σ B m s →
    Traced σ m B s (ev m env e) (fun B' v => ∃ h, Means σ B' h env e v)

/-- What is found by comparing values that mean something is what they mean. -/
def ComparisonTraced (σ : Eagerness) (m : Machine) (cmp : Comparison V L) : Prop :=
  ∀ n ev, EvaluatorTraced σ m ev → ∀ {B s v w}, Traces σ B m s → B.Gives σ v → B.Gives σ w →
    Traced σ m B s (cmp n ev v w) (fun B' b => ∃ h, Compares σ B' h v w b)

namespace Traced

section

variable {α β : Type} {x : Eval V L α} {Q Q' : Bindings V L → α → Prop}
  {P : Bindings V L → β → Prop}

theorem pure {a : α} (hs : Traces σ B m s) (hQ : Q B a) : Traced σ m B s (pure a) Q := by
  intro a' s' ho
  cases ho
  exact ⟨B, List.prefix_refl B, hs, .refl m s, hQ⟩

theorem of_not_ok (hx : ∀ a s', outcome x s ≠ some (.ok a, s')) : Traced σ m B s x Q :=
  fun a s' ho => absurd ho (hx a s')

theorem mono (hx : Traced σ m B s x Q) (hQ : ∀ B' a, B <+: B' → Q B' a → Q' B' a) :
    Traced σ m B s x Q' := by
  intro a s' ho
  obtain ⟨B', hB, hs', hsettles, ha⟩ := hx a s' ho
  exact ⟨B', hB, hs', hsettles, hQ B' a hB ha⟩

theorem bind {f : α → Eval V L β} (hx : Traced σ m B s x Q)
    (hf : ∀ B' s' a, Traces σ B' m s' → B <+: B' → Q B' a → Traced σ m B' s' (f a) P) :
    Traced σ m B s (x >>= f) P := by
  intro b s'' ho
  obtain ⟨a, s', ho1, ho2⟩ := outcome_bind_ok.mp ho
  obtain ⟨B', hB, hs', hsettles, hQ⟩ := hx a s' ho1
  obtain ⟨B'', hB', hs'', hsettles', hP⟩ := hf B' s' a hs' hB hQ b s'' ho2
  exact ⟨B'', hB.trans hB', hs'', hsettles.trans hsettles', hP⟩

theorem mismatch {op : String} : Traced σ m B s (Eval.mismatch n op v) Q :=
  of_not_ok (fun _ _ => Eval.not_ok_throw)

/-- One level deeper. -/
theorem nested (hs : Traces σ B m s) (hx : ∀ s1, Traces σ B m s1 → Traced σ m B s1 x Q) :
    Traced σ m B s (Eval.nested m x) Q := by
  intro a s' ho
  obtain ⟨⟨⟩, s1, h1, ho⟩ := outcome_bind_ok.mp ho
  rw [Eval.enter, outcome_bind_of_ok _ (outcome_get s)] at h1
  dsimp only at h1
  split at h1
  · cases h1
    rw [Eval.outcome_andThen] at ho
    obtain ⟨⟨r, s2⟩, h2, ho⟩ := Option.map_eq_some_iff.mp ho
    cases ho
    obtain ⟨B', hB, hs2, hsettles, hQ⟩ := hx _ (hs.setDepth (s.depth m + 1)) a s2 h2
    refine ⟨B', hB, hs2.setDepth _, ⟨hsettles.closed, ?_⟩, hQ⟩
    have hdepth : s2.depth m = s.depth m + 1 :=
      hsettles.depth.trans (Store.depth_setDepth hs.counter _)
    calc (s2.setDepth m (s2.depth m - 1)).depth m
      _ = s2.depth m - 1 := Store.depth_setDepth hs2.counter _
      _ = s.depth m := by omega
  · cases h1

end

variable {ev : Evaluator V L} {n : Nat}

/-! ### Slots -/

/-- Reading a slot finds a value of it. -/
theorem force (hev : σ.isTotal = false → EvaluatorTraced σ m ev) (hs : Traces σ B m s)
    (label : String) (i : Nat) :
    Traced σ m B s (Eval.force ev label i) (fun B' v => ∃ h, Reads σ B' h i v) := by
  by_cases hlt : i < B.length
  · obtain ⟨y, hy⟩ : ∃ y, B[i]? = some y := ⟨_, List.getElem?_eq_getElem hlt⟩
    have hpure := hs.pure i y hy
    have hholds := hs.slot i y hy
    have hresume : σ.isTotal = false → y.before = [] → ∀ s1, Traces σ B m s1 →
        Traced σ m B s1 (Eval.resume ev ⟨y.expr, y.env, m⟩)
          (fun B' v => ∃ h, Reads σ B' h i v) := by
      intro hlazy hbefore s1 hs1
      refine (nested hs1 (fun s2 hs2 => hev hlazy B s2 y.env y.expr hpure hs2)).mono ?_
      rintro B' v hB ⟨h, hv⟩
      refine ⟨h + 1, .intro (Nat.lt_succ_self h) (Bindings.getElem?_mono hB hy) (fun _ => .null)
        ?_ hv⟩
      rw [hbefore]
      exact nofun
    intro v s' ho
    rw [Eval.force, outcome_bind_of_ok _ (outcome_get s)] at ho
    generalize hslot : s.slot i = x at hholds ho
    cases x with
    | uninit | forcing => cases ho
    | ready w =>
      cases ho
      exact ⟨B, List.prefix_refl B, hs, .refl m s, hholds.1⟩
    | byName z =>
      obtain ⟨⟨hlazy, rfl, hbefore, -⟩, -⟩ := hholds
      exact hresume hlazy hbefore s hs v s' ho
    | byNeed z =>
      obtain ⟨hlazy, rfl, hbefore, hpurpose⟩ := hholds
      -- the slot is open only while its expression is evaluated
      dsimp only at ho
      rw [outcome_bind_of_ok _ (Eval.outcome_put _ _ s), Eval.outcome_settle] at ho
      obtain ⟨⟨r, s2⟩, h2, ho⟩ := Option.map_eq_some_iff.mp ho
      cases ho
      have hs1 : Traces σ B m (s.setSlot i .forcing) := hs.setSlot hy hpurpose
      obtain ⟨B', hB, hs2, hsettles, hv⟩ := hresume hlazy hbefore _ hs1 v s2 h2
      have hy' := Bindings.getElem?_mono hB hy
      have hlt2 : i < s2.slots.size := hs2.size ▸ (List.getElem?_eq_some_iff.mp hy').1
      refine ⟨B', hB, hs2.setSlot hy' ⟨hv, fun hcons => ?_⟩,
        ⟨fun j hj ho => ?_, hsettles.depth⟩, hv⟩
      · rw [hpurpose hcons]
        trivial
      rw [Store.slot_setSlot] at ho
      rw [Store.size_setSlot] at hj
      split at ho
      · cases ho
      · rename_i hne
        obtain ⟨hj', ho'⟩ := hsettles.closed j hj ho
        rw [Store.size_setSlot] at hj'
        rw [Store.slot_setSlot, if_neg (fun hand => hne ⟨hand.1, hlt2⟩)] at ho'
        exact ⟨hj', ho'⟩
  · -- a slot that does not exist is not initialised
    intro v s' ho
    rw [Eval.force, outcome_bind_of_ok _ (outcome_get s),
      Store.slot_eq_uninit (by have := hs.size; omega)] at ho
    cases ho

theorem forceTail (hev : σ.isTotal = false → EvaluatorTraced σ m ev) (hs : Traces σ B m s)
    (i : Nat) :
    Traced σ m B s (Eval.forceTail n ev i)
      (fun B' v => (∃ h, Reads σ B' h i v) ∧ v.isList = true) := by
  refine bind (force hev hs _ i) (fun B' s' v hs' _ hv => ?_)
  split
  · rename_i hlist
    exact pure hs' ⟨hv, hlist⟩
  · exact of_not_ok (fun _ _ => Eval.not_ok_throw)

variable {sp : Span} {e f : Expr V L} {es : List (Expr V L)} {k : Nat}

/-- What is bound is evaluated or put off. -/
theorem defer (hev : EvaluatorTraced σ m ev) (hs : Traces σ B m s) (he : e.isPure = true)
    (policy : Policy) :
    Traced σ m B s (Eval.defer ev m env policy e)
      (fun B' x => Deferred σ B' m env policy e x) := by
  have hnow : Traced σ m B s (do return Slot.ready (← ev m env e))
      (fun B' x => Deferred σ B' m env policy e x) := by
    refine bind (hev B s env e he hs) ?_
    rintro B' s' v hs' - ⟨h, hv⟩
    exact pure hs' (.inl ⟨v, h, rfl, hv⟩)
  unfold Eval.defer
  split
  · exact hnow
  · cases policy with
    | value => exact hnow
    | name => exact pure hs (.inr ⟨rfl, .inl ⟨rfl, rfl⟩⟩)
    | need => exact pure hs (.inr ⟨rfl, .inr rfl⟩)

/-! ### Frames -/

/-- The values of expressions that are evaluated at once, with a common bound on the work. -/
theorem exists_meanings {eager : Bool} (hes : eager = true → ∀ e ∈ es, ∃ h v, Means σ B h env e v) :
    ∃ (k : Nat) (w : Expr V L → Value V L),
      eager = true → ∀ e ∈ es, Means σ B k env e (w e) := by
  have hbound : eager = true → ∃ k, ∀ e ∈ es, ∃ v, Means σ B k env e v := by
    intro heager
    have hes := hes heager
    induction es with
    | nil => exact ⟨0, nofun⟩
    | cons e es ih =>
      obtain ⟨h, v, hv⟩ := hes e List.mem_cons_self
      obtain ⟨k, hk⟩ := ih (fun _ e' he' => hes e' (List.mem_cons_of_mem e he'))
        (fun e' he' => hes e' (List.mem_cons_of_mem e he'))
      refine ⟨max h k, fun e' he' => ?_⟩
      rcases List.mem_cons.mp he' with rfl | he'
      · exact ⟨v, hv.mono (List.prefix_refl B) (Nat.le_max_left h k)⟩
      · obtain ⟨v', hv'⟩ := hk e' he'
        exact ⟨v', hv'.mono (List.prefix_refl B) (Nat.le_max_right h k)⟩
  cases eager with
  | false => exact ⟨0, fun _ => .null, nofun⟩
  | true =>
    obtain ⟨k, hk⟩ := hbound rfl
    choose! w hw using hk
    exact ⟨k, w, fun _ => hw⟩

section

variable (hev : EvaluatorTraced σ m ev)
include hev

/-- Binding the next expression of a frame gives its slot what it may hold. -/
theorem bindNext (hσ : σ.Fits m.config) {b : Binding} (he : e.isPure = true)
    (hb : B[b.slot]? = some ⟨e, env, if σ.binding then seen else [], .variable⟩)
    (hseen : σ.binding = true → ∀ e ∈ seen, ∃ h v, Means σ B h env e v) (hs : Traces σ B m s)
    {x : Slot V L}
    (ho : outcome (Eval.defer ev m env m.config.binding e) s = some (.ok x, s')) :
    ∃ B', B <+: B' ∧ Traces σ B' m (s'.setSlot b.slot x) ∧
      Settles m s (s'.setSlot b.slot x) ∧ ((s'.setSlot b.slot x).slot b.slot).isOpen = false ∧
      (σ.binding = true → ∀ e' ∈ seen ++ [e], ∃ h v, Means σ B' h env e' v) := by
  have hlazy := hσ.binding
  obtain ⟨B', hB, hs', hsettles, hx⟩ := defer hev hs he m.config.binding x s' ho
  have hseen : σ.binding = true → ∀ e ∈ seen, ∃ h v, Means σ B' h env e v := by
    intro heager e' he'
    obtain ⟨h, v, hv⟩ := hseen heager e' he'
    exact ⟨h, v, hv.mono hB le_rfl⟩
  have hb := Bindings.getElem?_mono hB hb
  have hlt : b.slot < s'.slots.size := hs'.size ▸ (List.getElem?_eq_some_iff.mp hb).1
  -- what was evaluated at once was evaluated after the expressions before it
  have hholds : Holds σ B' m b.slot ⟨e, env, if σ.binding then seen else [], .variable⟩ x := by
    rcases hx with ⟨v, h, rfl, hv⟩ | ⟨hpolicy, hx⟩
    · obtain ⟨k, w, hw⟩ := exists_meanings hseen
      refine ⟨⟨max h k + 1, .intro (Nat.lt_succ_self _) hb w (fun e' he' => ?_)
        (hv.mono (List.prefix_refl B') (Nat.le_max_left h k))⟩, fun _ => trivial⟩
      cases heager : σ.binding with
      | false => simp [heager] at he'
      | true =>
        simp only [heager, if_true] at he'
        exact (hw heager e' he').mono (List.prefix_refl B') (Nat.le_max_right h k)
    · rw [hpolicy] at hlazy
      have hputsOff : Bound.PutsOff σ m ⟨e, env, if σ.binding then seen else [], .variable⟩
          ⟨e, env, m⟩ :=
        ⟨by simp [Eagerness.isTotal, hlazy], rfl, by rw [hlazy]; rfl, fun _ => rfl⟩
      rcases hx with ⟨rfl, -⟩ | rfl
      · exact ⟨hputsOff, .inl rfl⟩
      · exact hputsOff
  have hslot : ∀ j, (s'.setSlot b.slot x).slot j = if j = b.slot then x else s'.slot j := by
    intro j
    rw [Store.slot_setSlot]
    by_cases heq : j = b.slot
    · rw [if_pos ⟨heq.symm, heq ▸ hlt⟩, if_pos heq]
    · rw [if_neg (fun hand => heq hand.1.symm), if_neg heq]
  refine ⟨B', hB, hs'.setSlot hb hholds, hsettles.trans ⟨fun j hj hopen => ?_, rfl⟩, ?_, ?_⟩
  · rw [Store.size_setSlot] at hj
    rw [hslot] at hopen
    split at hopen
    · rw [hx.isOpen_eq] at hopen
      cases hopen
    · exact ⟨hj, hopen⟩
  · rw [hslot, if_pos rfl]
    exact hx.isOpen_eq
  · intro heager e' he'
    rcases List.mem_append.mp he' with he' | he'
    · exact hseen heager e' he'
    · obtain rfl := List.mem_singleton.mp he'
      rw [hlazy, Bool.not_eq_true'] at heager
      obtain ⟨v, h, -, hv⟩ := hx.means heager
      exact ⟨h, v, hv⟩

/-- Binding the expressions of a frame gives its slots what they may hold. -/
theorem bindEach (hσ : σ.Fits m.config) {bs : List Binding} (hes : Expr.allPure es = true)
    (hrow : B.Row σ.binding env seen bs es) (hB : B <+: B')
    (hseen : σ.binding = true → ∀ e ∈ seen, ∃ h v, Means σ B' h env e v) (hs : Traces σ B' m s)
    (ho : outcome (Eval.bindEach ev m env bs es) s = some (.ok ⟨⟩, s')) :
    ∃ B'', B' <+: B'' ∧ Traces σ B'' m s' ∧ Settles m s s' ∧
      (∀ b ∈ bs, (s'.slot b.slot).isOpen = false) ∧
      (σ.binding = true → ∀ e ∈ seen ++ es, ∃ h v, Means σ B'' h env e v) := by
  induction hrow generalizing B' s with
  | nil =>
    cases ho
    rw [List.append_nil]
    exact ⟨B', List.prefix_refl B', hs, .refl m _, nofun, hseen⟩
  | @cons seen b bs e es hb hbs ih =>
    rw [Expr.allPure, Bool.and_eq_true] at hes
    obtain ⟨x, s1, h1, ho⟩ := outcome_bind_ok.mp ho
    obtain ⟨⟨⟩, s2, h2, ho⟩ := outcome_bind_ok.mp ho
    cases h2
    have hb' := Bindings.getElem?_mono hB hb
    obtain ⟨B1, hB1, hs1, hsettles1, hclosed, hseen1⟩ := bindNext hev hσ hes.1 hb' hseen hs h1
    obtain ⟨B2, hB2, hs2, hsettles2, hbs', hes'⟩ := ih hes.2 (hB.trans hB1) hseen1 hs1 ho
    refine ⟨B2, hB1.trans hB2, hs2, hsettles1.trans hsettles2, fun c hc => ?_, ?_⟩
    · rcases List.mem_cons.mp hc with rfl | hc
      · refine Bool.eq_false_iff.mpr (fun hopen => ?_)
        have hlt : c.slot < s'.slots.size := hs2.size ▸ (List.getElem?_eq_some_iff.mp
          (Bindings.getElem?_mono (hB1.trans hB2) hb')).1
        rw [(hsettles2.closed c.slot hlt hopen).2] at hclosed
        cases hclosed
      · exact hbs' c hc
    · rw [List.append_assoc] at hes'
      exact hes'

/-- Making a frame and binding its expressions. -/
theorem bindFrame (hσ : σ.Fits m.config) {P : Bindings V L → β → Prop} {names : List String}
    (hes : Expr.allPure es = true) (hlen : names.length = es.length) (scope : Frame → Env)
    (hs : Traces σ B m s) {f : Frame → Eval V L β}
    (hf : ∀ B' s' frame, Traces σ B' m s' → B <+: B' → B'.Row σ.binding (scope frame) [] frame es →
      (σ.binding = true → ∀ e ∈ es, ∃ h v, Means σ B' h (scope frame) e v) → Traced σ m B' s' (f
      frame) P) :
    Traced σ m B s (do
      let frame ← EvalOps.newFrame names
      Eval.bindEach ev m (scope frame) frame es
      f frame) P := by
  intro b s' ho
  obtain ⟨frame, s1, h1, ho⟩ := outcome_bind_ok.mp ho
  obtain ⟨rfl, rfl⟩ := outcome_modifyGet_ok h1
  obtain ⟨⟨⟩, s2, h2, ho⟩ := outcome_bind_ok.mp ho
  obtain ⟨hs1, hrow⟩ := hs.newFrame hes hlen σ.binding (scope (s.newFrame names).1)
  obtain ⟨B2, hB2, hs2, hsettles2, hclosed, hmeans⟩ :=
    bindEach hev hσ hes hrow (List.prefix_refl _) nofun hs1 h2
  have hB := (List.prefix_append B _).trans hB2
  obtain ⟨B', hB', hs', hsettles', hP⟩ :=
    hf B2 s2 _ hs2 hB (Bindings.Covers.row (.of_grows σ hB2) hrow) hmeans b s' ho
  refine ⟨B', hB.trans hB', hs', Settles.trans ⟨fun j hj ho => ?_, hsettles2.depth⟩ hsettles', hP⟩
  -- the only slots that were opened are those of the frame, and they have been closed
  obtain ⟨hj1, ho1⟩ := hsettles2.closed j hj ho
  rw [Store.slot_newFrame] at ho1
  rw [Store.size_newFrame] at hj1
  refine ⟨?_, ho1⟩
  by_contra hge
  have hmem : j ∈ (s.newFrame names).1.map Binding.slot := by
    rw [Store.map_slot_newFrame, List.mem_range'_1]
    omega
  obtain ⟨c, hc, rfl⟩ := List.mem_map.mp hmem
  rw [hclosed c hc] at ho
  cases ho

/-! ### Operators -/

/-- Two expressions, one after the other. -/
theorem both {P : Bindings V L → β → Prop} (h1 : e1.isPure = true) (h2 : e2.isPure = true)
    (hs : Traces σ B m s) {f : Value V L → Value V L → Eval V L β}
    (hf : ∀ B' s' k v w, Traces σ B' m s' → Means σ B' k env e1 v → Means σ B' k env e2 w → Traced
      σ m B' s' (f v w) P) :
    Traced σ m B s (do let v ← ev m env e1; let w ← ev m env e2; f v w) P := by
  refine bind (hev B s env e1 h1 hs) ?_
  rintro B1 s1 v hs1 - ⟨k1, hv⟩
  refine bind (hev B1 s1 env e2 h2 hs1) ?_
  rintro B2 s2 w hs2 hB2 ⟨k2, hw⟩
  exact hf B2 s2 (max k1 k2) v w hs2 (hv.mono hB2 (Nat.le_max_left k1 k2))
    (hw.mono (List.prefix_refl B2) (Nat.le_max_right k1 k2))

theorem unary {op : UnaryOp} (hpure : (Expr.unary sp op e : Expr V L).isPure = true)
    (hs : Traces σ B m s) :
    Traced σ m B s (do Eval.unary n op (← ev m env e))
      (fun B' v => ∃ h, Means σ B' h env (.unary sp op e) v) := by
  simp only [Expr.isPure, Bool.and_eq_true, bne_iff_ne] at hpure
  refine bind (hev B s env e hpure.2 hs) ?_
  rintro B1 s1 v hs1 - ⟨k, hv⟩
  intro w s' ho
  obtain ⟨z, hz, rfl, rfl⟩ := Eval.unary_ok hpure.1.2 hpure.1.1 ho
  exact ⟨B1, List.prefix_refl B1, hs1, .refl m _, k + 1, .unary (Nat.lt_succ_self k) hv hz⟩

/-- A logical operator means what its left operand decides or its right one means. -/
theorem logical {d : Bool} (hop : op.decisive? = some d) (hl : l.isPure = true)
    (hr : r.isPure = true) (hs : Traces σ B m s) :
    Traced σ m B s (Eval.logical n ev m env op d l r)
      (fun B' v => ∃ h, Means σ B' h env (.binary sp op l r) v) := by
  refine bind (hev B s env l hl hs) ?_
  rintro B1 s1 v hs1 - ⟨k1, hv⟩
  cases v with
  | bool b =>
    dsimp only
    by_cases hb : b = d
    · rw [if_pos hb]
      refine pure hs1 ⟨k1 + 1, ?_⟩
      have hmeans : Means σ B1 (k1 + 1) env (.binary sp op l r)
          (.bool (if b = d then d else d)) :=
        .logical (Nat.lt_succ_self k1) hop hv (fun hne => absurd hb hne)
      rwa [if_pos hb, ← hb] at hmeans
    · rw [if_neg hb]
      refine bind (hev B1 s1 env r hr hs1) ?_
      rintro B2 s2 w hs2 hB2 ⟨k2, hw⟩
      cases w with
      | bool c =>
        refine pure hs2 ⟨max k1 k2 + 1, ?_⟩
        have hmeans : Means σ B2 (max k1 k2 + 1) env (.binary sp op l r)
            (.bool (if b = d then d else c)) :=
          .logical (Nat.lt_succ_self (max k1 k2)) hop
            (hv.mono hB2 (Nat.le_max_left k1 k2))
            (fun _ => hw.mono (List.prefix_refl B2) (Nat.le_max_right k1 k2))
        rwa [if_neg hb] at hmeans
      | _ => exact mismatch
  | _ => exact mismatch

end

theorem binary {cmp : Comparison V L} (hcmp : ComparisonTraced σ m cmp)
    (hev : EvaluatorTraced σ m ev) (hl : l.isPure = true) (hr : r.isPure = true)
    (hs : Traces σ B m s) :
    Traced σ m B s (do
      let v ← ev m env l
      let w ← ev m env r
      Eval.operate cmp n ev op v w)
      (fun B' v => ∃ h, Means σ B' h env (.binary sp op l r) v) := by
  refine both hev hl hr hs (fun B' s' k v w hs' hv hw => ?_)
  unfold Eval.operate
  cases hop : op.comparison? with
  | some f =>
    refine bind (hcmp n ev hev hs' ⟨k, env, l, hv⟩ ⟨k, env, r, hw⟩) ?_
    rintro B1 s1 b hs1 hB1 ⟨k1, hc⟩
    exact pure hs1 ⟨max k k1 + 1, .compare (Nat.lt_succ_self _) hop
      (hv.mono hB1 (Nat.le_max_left _ _)) (hw.mono hB1 (Nat.le_max_left _ _))
      (hc.mono (List.prefix_refl B1) (Nat.le_max_right _ _))⟩
  | none =>
    intro x s'' ho
    obtain ⟨a, b, z, rfl, rfl, hz, rfl, rfl⟩ := Eval.arithmetic_ok ho
    exact ⟨B', List.prefix_refl B', hs', .refl m _, k + 1,
      .binary (Nat.lt_succ_self k) hv hw (by simp only [BinaryOp.onPlain?, hz]; rfl)⟩

/-! ### Applications -/

section

variable (hev : EvaluatorTraced σ m ev)
include hev

/-- A pair of two expressions means a pair of what is bound to its parts. -/
theorem cons (hσ : σ.Fits m.config) (h1 : e1.isPure = true) (h2 : e2.isPure = true)
    (hs : Traces σ B m s) (hf : Means σ B k env f (.prim .cons)) :
    Traced σ m B s (Eval.cons n ev m env e1 e2)
      (fun B' v => ∃ h, Means σ B' h env (.app sp f [e1, e2]) v) := by
  intro v s' ho
  obtain ⟨head, s1, tail, s2, ho1, ho2, rfl, rfl, hlist⟩ := Eval.cons_ok ho
  obtain ⟨B1, hB1, hs1, hsettles1, hhead⟩ := defer hev hs h1 m.config.cons head s1 ho1
  obtain ⟨B2, hB2, hs2, hsettles2, htail⟩ := defer hev hs1 h2 m.config.cons tail s2 ho2
  have hhead := hhead.mono hB2
  obtain ⟨B3, hB3⟩ : ∃ B3, B3 = B2 ++ [⟨e1, env, [], .head⟩, ⟨e2, env, [], .tail⟩] := ⟨_, rfl⟩
  have hB : B2 <+: B3 := hB3 ▸ List.prefix_append _ _
  have hi : B3[s2.slots.size]? = some ⟨e1, env, [], .head⟩ := by
    rw [hB3, ← hs2.size, List.getElem?_append_right le_rfl, Nat.sub_self]
    rfl
  have hj : B3[s2.slots.size + 1]? = some ⟨e2, env, [], .tail⟩ := by
    rw [hB3, ← hs2.size, List.getElem?_append_right (Nat.le_add_right _ 1),
      Nat.add_sub_cancel_left]
    rfl
  have hs' : Traces σ B3 m (s2.newPair head tail).2 := by
    rw [hB3] at hi hj hB ⊢
    refine hs2.append _ (Store.size_newPair s2 head tail) (fun i hlt => ?_) (fun i y hy => ?_)
      (fun y hy => ?_) rfl
    · rw [Store.slot_newPair, if_neg (by omega), if_neg (by omega)]
    · rw [Store.slot_newPair]
      match i, hy with
      | 0, hy =>
        cases hy
        rw [Nat.add_zero, if_pos rfl]
        exact hhead.holds hσ hB hi (fun v _ hv _ => hs2.size ▸ hv)
      | 1, hy =>
        cases hy
        rw [if_neg (Nat.succ_ne_self _), if_pos rfl]
        refine htail.holds hσ hB hj (fun v hx hv hcons => ⟨hv.mono ?_, hlist ?_ v hx⟩)
        · exact hs2.size.le.trans (Nat.le_add_right _ 1)
        · rw [← Bool.not_eq_true', ← hσ.cons, hcons]
    · simp only [List.mem_cons, List.not_mem_nil, or_false] at hy
      rcases hy with rfl | rfl
      · exact h1
      · exact h2
  have hnew : Settles m s2 (s2.newPair head tail).2 := by
    refine ⟨fun j hj ho => ?_, rfl⟩
    rw [Store.slot_newPair] at ho
    rw [Store.size_newPair] at hj
    split at ho
    · rw [hhead.isOpen_eq] at ho
      cases ho
    · split at ho
      · rw [htail.isOpen_eq] at ho
        cases ho
      · exact ⟨by omega, ho⟩
  refine ⟨_, (hB1.trans hB2).trans hB, hs', (hsettles1.trans hsettles2).trans hnew, ?_⟩
  have hf := hf.mono ((hB1.trans hB2).trans hB) le_rfl
  cases hcons : σ.cons with
  | false =>
    have hlazy : σ.cons ≠ true := by simp [hcons]
    exact ⟨k + 1, .cons (v := .null) (w := .null) (Nat.lt_succ_self k) hf hi hj
      (fun h => absurd h hlazy) (fun h => absurd h hlazy) (fun h => absurd h hlazy)⟩
  | true =>
    have hstrict : m.config.cons.isLazy = false := by
      rw [← Bool.not_eq_true', ← hcons, hσ.cons]
    obtain ⟨v, k1, rfl, hv⟩ := hhead.means hstrict
    obtain ⟨w, k2, rfl, hw⟩ := htail.means hstrict
    exact ⟨max k (max k1 k2) + 1, .cons (Nat.lt_succ_self _)
      (hf.mono (List.prefix_refl _) (by omega)) hi hj (fun _ => hv.mono hB (by omega))
      (fun _ => hw.mono hB (by omega))
      (fun _ => hlist hstrict w rfl)⟩

/-- A call of a primitive means what the primitive gives. -/
theorem applyPrim (hσ : σ.Fits m.config) {p : Prim} (hargs : Expr.allPure args = true)
    (hs : Traces σ B m s) (hf : Means σ B k env f (.prim p)) :
    Traced σ m B s (Eval.applyPrim n ev m env p args)
      (fun B' v => ∃ h, Means σ B' h env (.app sp f args) v) := by
  unfold Eval.applyPrim
  split
  · simp only [Expr.allPure, Bool.and_eq_true] at hargs
    exact cons hev hσ hargs.1 hargs.2.1 hs hf
  · exact of_not_ok (fun _ _ ho => by cases ho)
  · rename_i e hp
    simp only [Expr.allPure, Bool.and_eq_true] at hargs
    refine bind (hev B s env e hargs.1 hs) ?_
    rintro B1 s1 v hs1 hB1 ⟨k1, hv⟩
    have hf := hf.mono hB1 (Nat.le_max_left k k1)
    have hv := hv.mono (List.prefix_refl B1) (Nat.le_max_right k k1)
    intro w s' ho
    rcases Eval.primitive_ok ho with ⟨z, hz, rfl, rfl⟩ | ⟨i, j, rfl, rfl, ho⟩ | ⟨i, j, rfl, rfl, ho⟩
    · exact ⟨B1, List.prefix_refl B1, hs1, .refl m _, _, .inspect (Nat.lt_succ_self _) hf hv hz⟩
    · obtain ⟨B2, hB2, hs2, hsettles, k2, hw⟩ := force (fun _ => hev) hs1 _ i w s' ho
      exact ⟨B2, hB2, hs2, hsettles, max (max k k1) k2 + 1, .first (Nat.lt_succ_self _)
        (hf.mono hB2 (Nat.le_max_left _ _)) (hv.mono hB2 (Nat.le_max_left _ _))
        (hw.mono (List.prefix_refl B2) (Nat.le_max_right _ _))⟩
    · obtain ⟨B2, hB2, hs2, hsettles, ⟨k2, hw⟩, hlist⟩ := forceTail (fun _ => hev) hs1 j w s' ho
      exact ⟨B2, hB2, hs2, hsettles, max (max k k1) k2 + 1, .rest (Nat.lt_succ_self _)
        (hf.mono hB2 (Nat.le_max_left _ _)) (hv.mono hB2 (Nat.le_max_left _ _))
        (hw.mono (List.prefix_refl B2) (Nat.le_max_right _ _)) hlist⟩
  · exact of_not_ok (fun _ _ ho => by cases ho)

/-- A call means what the body means with the arguments bound. -/
theorem applyClosure (hσ : σ.Fits m.config) {id : Nat} {c : Closure V L}
    (hargs : Expr.allPure args = true) (hbody : c.body.isPure = true) (hs : Traces σ B m s)
    (hf : Means σ B k env f (.closure id c)) :
    Traced σ m B s (Eval.applyClosure ev m env f c args)
      (fun B' v => ∃ h, Means σ B' h env (.app sp f args) v) := by
  unfold Eval.applyClosure Eval.applyClosureBy
  split
  · exact of_not_ok nofun
  · rename_i hlen
    have hlen : args.length = c.arity := not_not.mp hlen
    refine bindFrame hev hσ hargs ((List.length_map _).trans hlen.symm) (fun _ => env) hs ?_
    intro B1 s1 frame hs1 hB1 hrow hmeans
    refine (nested hs1 (fun s2 hs2 => hev B1 s2 (frame :: c.env) c.body hbody hs2)).mono ?_
    rintro B2 v hB2 ⟨k2, hv⟩
    obtain ⟨k1, w, hw⟩ := exists_meanings hmeans
    exact ⟨max k (max k1 k2) + 1, .call (Nat.lt_succ_self _) (hf.mono (hB1.trans hB2) (by omega))
      hlen (Bindings.Covers.row (.of_grows σ hB2) hrow) w
      (fun hσ e he => (hw hσ e he).mono hB2 (by omega))
      (hv.mono (List.prefix_refl B2) (by omega))⟩

/-! ### Expressions -/

/-- Definitions mean what the body means with the names bound. -/
theorem letIn (hσ : σ.Fits m.config) (kind : LetKind) {defs : List (Ident × Expr V L)}
    {layout : L} {body : Expr V L} (hdefs : Expr.defsPure defs = true)
    (hbody : body.isPure = true) (hs : Traces σ B m s) :
    Traced σ m B s (do
      let frame ← EvalOps.newFrame (Expr.defNames defs)
      Eval.bindEach ev m (kind.scope frame env) frame (Expr.defValues defs)
      ev m (frame :: env) body)
      (fun B' v => ∃ h, Means σ B' h env (.letIn sp kind defs layout body) v) := by
  rw [← Expr.allPure_defValues] at hdefs
  have hlen : (Expr.defNames defs).length = (Expr.defValues defs).length := by
    rw [Expr.defNames, Expr.defValues, List.length_map, List.length_map]
  refine bindFrame hev hσ hdefs hlen (fun frame => kind.scope frame env) hs ?_
  intro B1 s1 frame hs1 hB1 hrow hmeans
  refine (hev B1 s1 (frame :: env) body hbody hs1).mono ?_
  rintro B2 v hB2 ⟨k2, hv⟩
  obtain ⟨k1, w, hw⟩ := exists_meanings hmeans
  exact ⟨max k1 k2 + 1, .letIn (Nat.lt_succ_self _) (Bindings.Covers.row (.of_grows σ hB2) hrow) w
    (fun hσ e he => (hw hσ e he).mono hB2 (by omega)) (hv.mono (List.prefix_refl B2) (by omega))⟩

theorem sequence (hes : Expr.allPure (e :: es) = true) (v : Value V L)
    (hs : Traces σ B m s) :
    Traced σ m B s (Eval.sequence ev m env v (e :: es))
      (fun B' w => ∃ h, Means σ B' h env (.block sp (e :: es)) w) := by
  induction es generalizing B s e v with
  | nil =>
    rw [Expr.allPure, Bool.and_eq_true] at hes
    refine bind (hev B s env e hes.1 hs) ?_
    rintro B1 s1 w hs1 - ⟨k, hw⟩
    exact pure hs1 ⟨k + 1, .blockLast (Nat.lt_succ_self k) hw⟩
  | cons e' es ih =>
    rw [Expr.allPure, Bool.and_eq_true] at hes
    refine bind (hev B s env e hes.1 hs) ?_
    rintro B1 s1 w hs1 - ⟨k1, hw⟩
    refine (ih hes.2 w hs1).mono ?_
    rintro B2 x hB2 ⟨k2, hx⟩
    exact ⟨max k1 k2 + 1, .blockCons (Nat.lt_succ_self _) (hw.mono hB2 (by omega))
      (hx.mono (List.prefix_refl B2) (by omega))⟩

end

variable {cmp : Comparison V L}

/-- A run of the evaluator shows what the expression means. -/
theorem step (hcmp : ComparisonTraced σ m cmp) (hev : EvaluatorTraced σ m ev)
    (hσ : σ.Fits m.config) (hpure : e.isPure = true) (hs : Traces σ B m s) :
    Traced σ m B s (Eval.stepWith cmp n ev m env e)
      (fun B' v => ∃ h, Means σ B' h env e v) := by
  cases e with
  | int sp k => exact pure hs ⟨0, .int k⟩
  | bool sp b => exact pure hs ⟨0, .bool b⟩
  | null sp => exact pure hs ⟨0, .null⟩
  | prim sp p => exact pure hs ⟨0, .prim p⟩
  | var sp x =>
    intro v s' ho
    simp only [Eval.stepWith, Eval.stepBy] at ho
    split at ho
    · rename_i b hb
      obtain ⟨B', hB, hs', hsettles, h, hv⟩ := force (fun _ => hev) hs b.name b.slot v s' ho
      exact ⟨B', hB, hs', hsettles, h, .var hb hv⟩
    · cases ho
  | unary sp op e => exact unary hev hpure hs
  | binary sp op l r =>
    simp only [Expr.isPure, Bool.and_eq_true, bne_iff_ne] at hpure
    obtain ⟨⟨hop, hl⟩, hr⟩ := hpure
    cases hdecisive : op.decisive? with
    | some d =>
      have hlogical : Traced σ m B s (Eval.logical n ev m env op d l r)
          (fun B' v => ∃ h, Means σ B' h env (.binary sp op l r) v) :=
        logical hev hdecisive hl hr hs
      cases op <;> cases hdecisive <;> exact hlogical
    | none =>
      rw [Eval.stepWith_binary hdecisive hop]
      exact binary hcmp hev hl hr hs
  | app sp f args =>
    rw [Expr.isPure, Bool.and_eq_true] at hpure
    refine bind (hev B s env f hpure.1 hs) ?_
    rintro B1 s1 v hs1 hB1 ⟨k, hf⟩
    have hval := hf.isPure hs1.pure hpure.1
    cases v with
    | closure id c => exact applyClosure hev hσ hpure.2 hval hs1 hf
    | prim p => exact applyPrim hev hσ hpure.2 hs1 hf
    | _ => exact of_not_ok (fun _ _ => Eval.not_ok_throw)
  | map sp params layout body =>
    intro v s' ho
    obtain ⟨rfl, rfl⟩ := outcome_modifyGet_ok ho
    exact ⟨B, List.prefix_refl B, ⟨hs.size, hs.slot, hs.pure, hs.counter⟩,
      ⟨fun _ hj ho => ⟨hj, ho⟩, rfl⟩, 0, .map _⟩
  | cond sp t a b =>
    simp only [Expr.isPure, Bool.and_eq_true] at hpure
    obtain ⟨⟨ht, ha⟩, hb⟩ := hpure
    refine bind (hev B s env t ht hs) ?_
    rintro B1 s1 w hs1 - ⟨k1, hw⟩
    cases w with
    | bool test =>
      have hbranch : (if test then a else b).isPure = true := by
        cases test <;> assumption
      have hcond : Traced σ m B1 s1 (ev m env (if test then a else b))
          (fun B' v => ∃ h, Means σ B' h env (.cond sp t a b) v) := by
        refine (hev B1 s1 env _ hbranch hs1).mono ?_
        rintro B2 v hB2 ⟨k2, hv⟩
        exact ⟨max k1 k2 + 1, .cond (Nat.lt_succ_self _) (hw.mono hB2 (by omega))
          (hv.mono (List.prefix_refl B2) (by omega))⟩
      cases test
      · exact hcond
      · exact hcond
    | _ => exact mismatch
  | letIn sp kind defs layout body =>
    rw [Expr.isPure, Bool.and_eq_true] at hpure
    cases kind with
    | plain => exact letIn hev hσ .plain hpure.1 hpure.2 hs
    | recursive => exact letIn hev hσ .recursive hpure.1 hpure.2 hs
  | block sp es =>
    cases es with
    | nil => exact pure hs ⟨0, .blockNil⟩
    | cons e es => exact sequence hev hpure .unit hs

/-- A run finds out what the expression means. -/
theorem eval (hcmp : ComparisonTraced σ m cmp) (hσ : σ.Fits m.config) (n : Nat) :
    EvaluatorTraced σ m (Machine.evalWith cmp n) := by
  induction n with
  | zero => exact fun B s env e _ _ => of_not_ok nofun
  | succ n ih => exact fun B s env e hpure hs => step hcmp ih hσ hpure hs

end Traced

/-! ## Comparisons -/

namespace ComparisonTraced

/-- Plain values are compared by what they are. -/
theorem equalsPlain : ComparisonTraced σ m (Eval.equalsPlain : Comparison V L) := by
  intro n ev hev B s v w hs hv hw b s' ho
  obtain ⟨hplain, rfl, rfl⟩ := Eval.equalsPlain_ok ho
  refine ⟨B, List.prefix_refl B, hs, .refl m _, 0, .atoms ?_ ?_ ?_⟩
  · rintro ⟨i, j, i', j', rfl, rfl⟩
    cases hplain
  · cases v <;> first | rfl | cases hplain
  · cases w <;> first | rfl | simp [Value.isPlain] at hplain

/-- Pairs are compared part by part, unless they are the same pair. -/
theorem pairs (hσ : σ.sharing = true) {ev : Evaluator V L}
    (hev : EvaluatorTraced σ m ev)
    {cmp : Value V L → Value V L → Eval V L Bool}
    (hcmp : ∀ {B s v w}, Traces σ B m s → B.Gives σ v → B.Gives σ w →
      Traced σ m B s (cmp v w) (fun B' b => ∃ h, Compares σ B' h v w b))
    (hs : Traces σ B m s) (i j i' j' : Nat) :
    Traced σ m B s (do
      if i = i' ∧ j = j' then return true
      else
        let a ← Eval.forceHead ev i
        let b ← Eval.forceHead ev i'
        if ← cmp a b then
          let a ← Eval.forceTail n ev j
          let b ← Eval.forceTail n ev j'
          cmp a b
        else return false)
      (fun B' b => ∃ h, Compares σ B' h (.pair i j) (.pair i' j') b) := by
  split
  · rename_i hsame
    obtain ⟨rfl, rfl⟩ := hsame
    exact Traced.pure hs ⟨0, .same hσ⟩
  · refine (Traced.force (fun _ => hev) hs _ i).bind ?_
    rintro B1 s1 x hs1 - ⟨k1, hx⟩
    refine (Traced.force (fun _ => hev) hs1 _ i').bind ?_
    rintro B2 s2 x' hs2 hB2 ⟨k2, hx'⟩
    refine (hcmp hs2 (hx.gives.mono hB2) hx'.gives).bind ?_
    rintro B3 s3 b hs3 hB3 ⟨k3, hb⟩
    have hx := hx.mono (hB2.trans hB3) (show k1 ≤ max k1 (max k2 k3) by omega)
    have hx' := hx'.mono hB3 (show k2 ≤ max k1 (max k2 k3) by omega)
    have hb := hb.mono (List.prefix_refl B3) (show k3 ≤ max k1 (max k2 k3) by omega)
    cases b with
    | false => exact Traced.pure hs3 ⟨_, .heads (Nat.lt_succ_self _) hx hx' hb⟩
    | true =>
      refine (Traced.forceTail (fun _ => hev) hs3 j).bind ?_
      rintro B4 s4 y hs4 hB4 ⟨⟨k4, hy⟩, hlist⟩
      refine (Traced.forceTail (fun _ => hev) hs4 j').bind ?_
      rintro B5 s5 y' hs5 hB5 ⟨⟨k5, hy'⟩, hlist'⟩
      refine (hcmp hs5 (hy.gives.mono hB5) hy'.gives).mono ?_
      rintro B6 b hB6 ⟨k6, hb'⟩
      have hB := (hB4.trans hB5).trans hB6
      exact ⟨max (max k1 (max k2 k3)) (max k4 (max k5 k6)) + 1, .tails (Nat.lt_succ_self _)
        (hx.mono hB (by omega)) (hx'.mono hB (by omega)) (hb.mono hB (by omega))
        (hy.mono (hB5.trans hB6) (by omega)) (hy'.mono hB6 (by omega)) hlist hlist'
        (hb'.mono (List.prefix_refl B6) (by omega))⟩

/-- Comparing values gives what they mean, if comparing those that are not pairs does. -/
theorem equalsBy (hσ : σ.sharing = true) {atoms : Value V L → Value V L → Eval V L Bool}
    (hatoms : ∀ {B s v w}, Traces σ B m s → (¬∃ i j i' j', v = .pair i j ∧ w = .pair i' j') →
      Traced σ m B s (atoms v w) (fun B' b => ∃ h, Compares σ B' h v w b)) :
    ComparisonTraced σ m (fun n ev => Eval.equalsBy atoms ev n : Comparison V L) := by
  intro n ev hev
  induction n with
  | zero => exact fun _ _ _ => Traced.of_not_ok (by rintro _ _ ⟨⟩)
  | succ n ih =>
    intro B s v w hs hv hw
    by_cases hpairs : ∃ i j i' j', v = .pair i j ∧ w = .pair i' j'
    · obtain ⟨i, j, i', j', rfl, rfl⟩ := hpairs
      exact pairs hσ hev ih hs i j i' j'
    · dsimp only
      rw [Eval.equalsBy_atoms _ hpairs]
      exact hatoms hs hpairs

/-- Closures are left out, if it matters what they are equal to. -/
theorem equalsApart (hσ : σ.sharing = true) :
    ComparisonTraced σ m (Eval.equalsApart : Comparison V L) := by
  refine equalsBy hσ (fun hs hpairs => ?_)
  split
  · exact Traced.of_not_ok (by rintro _ _ ⟨⟩)
  · rename_i hclosures
    rw [Bool.or_eq_true, not_or, Bool.not_eq_true, Bool.not_eq_true] at hclosures
    exact Traced.pure hs ⟨0, .atoms hpairs hclosures.1 hclosures.2⟩

/-- If it is left open what closures are equal to, nothing has to be left out. -/
theorem equals (hσ : σ.sharing = true) (hloose : σ.loose = true) :
    ComparisonTraced σ m (fun n ev => Eval.equals ev n : Comparison V L) :=
  equalsBy hσ (fun hs _ => Traced.pure hs ⟨0, .loose hloose⟩)

end ComparisonTraced

/-! ### When nothing is put off -/

omit [Variable V] in
theorem isClosure_of_not_contains (hfree : ¬ContainsClosure s v) : v.isClosure = false := by
  cases v with
  | closure id c => exact absurd (.closure id c) hfree
  | _ => rfl

section

variable (hs : Traces σ B m s) (hσ : σ.cons = true)

include hs hσ

/-- When no part of a pair is put off, the parts have their values. -/
theorem Traces.ready {r : Purpose} (hi : B.HasPurpose r i) (hr : r ≠ .variable) :
    ∃ x, s.slot i = .ready x ∧ (∃ h, Reads σ B h i x) ∧ r.Admits i x := by
  obtain ⟨y, hy, rfl⟩ := hi
  have hholds := hs.slot i y hy
  generalize s.slot i = x at hholds
  cases x with
  | ready x => exact ⟨x, rfl, hholds.1, hholds.2 hσ⟩
  | uninit | forcing => exact absurd (hholds hσ) hr
  | byName => exact absurd (hholds.1.purpose hσ) hr
  | byNeed => exact absurd (hholds.purpose hσ) hr

/-- The parts of a pair without closures in it have their values, and no closures in them. -/
theorem Traces.parts {j : Nat} (hv : B.Gives σ (.pair i j))
    (hfree : ¬ContainsClosure s (.pair i j)) :
    ∃ x y k, s.slot i = .ready x ∧ s.slot j = .ready y ∧ Reads σ B k i x ∧ Reads σ B k j y ∧
      x.PartsBelow i ∧ y.PartsBelow j ∧ y.isList = true ∧ ¬ContainsClosure s x ∧
      ¬ContainsClosure s y := by
  obtain ⟨h, env, e, hm⟩ := hv
  obtain ⟨hi, hj⟩ := hm.parts
  obtain ⟨x, hx, ⟨k, hrx⟩, hxi⟩ := hs.ready hσ hi nofun
  obtain ⟨y, hy, ⟨k', hry⟩, hyj, hlist⟩ := hs.ready hσ hj nofun
  have hB := List.prefix_refl B
  exact ⟨x, y, max k k', hx, hy, hrx.mono hB (Nat.le_max_left k k'),
    hry.mono hB (Nat.le_max_right k k'), hxi, hyj, hlist, fun hc => hfree (.head hx hc),
    fun hc => hfree (.tail hy hc)⟩

/-- A value without closures in it is equal to itself, part by part. -/
theorem Traces.compares_self (hv : B.Gives σ v) (hfree : ¬ContainsClosure s v) :
    ∃ h, Compares σ B h v v true := by
  obtain ⟨N, hN⟩ : ∃ N, v.PartsBelow N := by
    obtain ⟨_, _, _, hm⟩ := hv
    exact ⟨_, hm.partsBelow⟩
  -- a part is older than the pair it belongs to
  induction N using Nat.strong_induction_on generalizing v with
  | _ N ih =>
    by_cases hpair : ∃ i j, v = .pair i j
    · obtain ⟨i, j, rfl⟩ := hpair
      obtain ⟨x, y, k, hx, hy, hrx, hry, hxi, hyj, hlist, hxf, hyf⟩ := hs.parts hσ hv hfree
      obtain ⟨k1, hcx⟩ := ih i hN.1 hrx.gives hxf hxi
      obtain ⟨k2, hcy⟩ := ih j hN.2 hry.gives hyf hyj
      have hB := List.prefix_refl B
      have hrx := hrx.mono hB (show k ≤ max k (max k1 k2) by omega)
      have hry := hry.mono hB (show k ≤ max k (max k1 k2) by omega)
      exact ⟨_, .tails (Nat.lt_succ_self _) hrx hrx (hcx.mono hB (by omega)) hry hry hlist hlist
        (hcy.mono hB (by omega))⟩
    · have hclosure := isClosure_of_not_contains hfree
      have hself : Eval.sameAtom v v = true := by
        cases v <;> simp_all [Eval.sameAtom]
      refine ⟨0, hself ▸ .atoms ?_ hclosure hclosure⟩
      rintro ⟨i, j, _, _, heq, _⟩
      exact hpair ⟨i, j, heq⟩

/-- Values without closures in them are compared part by part. -/
theorem Traces.equals {ev : Evaluator V L} {w : Value V L} (hv : B.Gives σ v)
    (hw : B.Gives σ w) (hvf : ¬ContainsClosure s v) (hwf : ¬ContainsClosure s w) {b : Bool}
    (ho : outcome (Eval.equals ev n v w) s = some (.ok b, s')) :
    s' = s ∧ ∃ h, Compares σ B h v w b := by
  induction n generalizing v w b s' with
  | zero => cases ho
  | succ n ih =>
    by_cases hpairs : ∃ i j i' j', v = .pair i j ∧ w = .pair i' j'
    · obtain ⟨i, j, i', j', rfl, rfl⟩ := hpairs
      rw [Eval.equals, Eval.equalsBy] at ho
      by_cases hsame : i = i' ∧ j = j'
      · rw [if_pos hsame] at ho
        cases ho
        obtain ⟨rfl, rfl⟩ := hsame
        exact ⟨rfl, hs.compares_self hσ hv hvf⟩
      · rw [if_neg hsame] at ho
        obtain ⟨x, y, k, hx, hy, hrx, hry, -, -, hlist, hxf, hyf⟩ := hs.parts hσ hv hvf
        obtain ⟨x', y', k', hx', hy', hrx', hry', -, -, hlist', hxf', hyf'⟩ := hs.parts hσ hw hwf
        rw [Eval.forceHead, outcome_bind_of_ok _ (Eval.outcome_force hx _), Eval.forceHead,
          outcome_bind_of_ok _ (Eval.outcome_force hx' _)] at ho
        obtain ⟨same, s1, h1, ho⟩ := outcome_bind_ok.mp ho
        obtain ⟨rfl, k1, hcx⟩ := ih hrx.gives hrx'.gives hxf hxf' h1
        have hB := List.prefix_refl B
        have hrx := hrx.mono hB (show k ≤ max (max k k') k1 by omega)
        have hrx' := hrx'.mono hB (show k' ≤ max (max k k') k1 by omega)
        have hcx := hcx.mono hB (Nat.le_max_right (max k k') k1)
        cases same with
        | false =>
          cases ho
          exact ⟨rfl, _, .heads (Nat.lt_succ_self _) hrx hrx' hcx⟩
        | true =>
          have hy := (Eval.outcome_forceTail ev hy n).trans (if_pos hlist)
          have hy' := (Eval.outcome_forceTail ev hy' n).trans (if_pos hlist')
          rw [if_pos rfl, outcome_bind_of_ok _ hy, outcome_bind_of_ok _ hy'] at ho
          obtain ⟨rfl, k2, hcy⟩ := ih hry.gives hry'.gives hyf hyf' ho
          exact ⟨rfl, max (max (max k k') k1) k2 + 1, .tails (Nat.lt_succ_self _)
            (hrx.mono hB (by omega)) (hrx'.mono hB (by omega)) (hcx.mono hB (by omega))
            (hry.mono hB (by omega)) (hry'.mono hB (by omega)) hlist hlist'
            (hcy.mono hB (by omega))⟩
    · rw [Eval.equals, Eval.equalsBy_atoms _ hpairs] at ho
      cases ho
      exact ⟨rfl, 0, .atoms hpairs (isClosure_of_not_contains hvf) (isClosure_of_not_contains hwf)⟩

end

/-- When no part of a pair is put off, values without closures are compared by what they mean. -/
theorem ComparisonTraced.equalsUnlessClosure (hσ : σ.cons = true) :
    ComparisonTraced σ m (Eval.equalsUnlessClosure : Comparison V L) := by
  intro n ev hev B s v w hs hv hw b s' ho
  rw [Eval.equalsUnlessClosure, outcome_bind_of_ok _ (outcome_get s)] at ho
  split at ho
  · cases ho
  · rename_i hfree
    rw [not_or] at hfree
    obtain ⟨rfl, hc⟩ := hs.equals hσ hv hw hfree.1 hfree.2 ho
    exact ⟨B, List.prefix_refl B, hs, .refl m _, hc⟩

end Mapling
