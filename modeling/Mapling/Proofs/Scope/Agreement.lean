import Mapling.Proofs.Scope.InStep

/-! # Programs with names and resolved programs agree

Each operation of evaluation is in step with itself once the evaluations it leads to are, so by
induction on the bound of the recursion a program and its resolved form are in step. Nothing is
said about policies along the way: the two evaluations make the same slots, put off the same
expressions and force them at the same moments. -/

namespace Mapling

open Mapling.Expr

/-- Evaluation of every well-scoped expression is in step with evaluation of its resolved
form. -/
def EvaluatorsInStep (ev : Evaluator Ident Unit) (ev' : Evaluator Address Layout) : Prop :=
  ∀ m env e, WellScoped env e → InStep SameValue (ev m env e) (ev' m env (e.addressed env.scopes))

namespace InStep

variable {ev : Evaluator Ident Unit} {ev' : Evaluator Address Layout}

/-! ## Slots -/

theorem resume (hev : EvaluatorsInStep ev ev') {s : Suspension Ident Unit}
    (hs : WellScoped s.env s.expr) :
    InStep SameValue (Eval.resume ev s) (Eval.resume ev' s.addressed) :=
  nested s.machine (hev s.machine s.env s.expr hs)

/-- Slots are forced in step, since they have the same numbers on both sides. -/
theorem force (hev : EvaluatorsInStep ev ev') (label : String) (i : Nat) :
    InStep SameValue (Eval.force ev label i) (Eval.force ev' label i) := by
  refine bind get ?_
  rintro s _ ⟨hs, rfl⟩
  have hslot := hs.slots i
  rw [Store.slot_addressed]
  cases h : s.slot i with
  | uninit | forcing => exact .throw (.refl _) rfl
  | ready v =>
    rw [h] at hslot
    exact .pure ⟨hslot, rfl⟩
  | byName susp =>
    rw [h] at hslot
    exact resume hev hslot
  | byNeed susp =>
    rw [h] at hslot
    refine bind (modify (fun s hs => hs.setSlot i trivial) (fun s => ?_)) (fun _ _ _ => ?_)
    · rw [Store.setSlot_addressed]
      rfl
    · -- a failure puts the suspension back, so the stores stay related then as well
      refine andThen (resume hev hslot) ?_ ?_
      · rintro v w s ⟨hv, rfl⟩ hs
        exact ⟨hs.setSlot i hv, (Store.setSlot_addressed s i (.ready v)).symm⟩
      · intro e e' s hs
        exact ⟨hs.setSlot i hslot, (Store.setSlot_addressed s i (.byNeed susp)).symm⟩

theorem forceTail (n : Nat) (hev : EvaluatorsInStep ev ev') (i : Nat) :
    InStep SameValue (Eval.forceTail n ev i) (Eval.forceTail n ev' i) := by
  refine bind (force hev _ i) ?_
  rintro v w ⟨hv, rfl⟩
  rw [Value.isList_addressed]
  split
  · exact .pure ⟨hv, rfl⟩
  · refine bind (shown n ⟨hv, rfl⟩) ?_
    rintro t _ rfl
    exact .throw (.refl _) rfl

theorem isImmediate_addressed (scopes : Scopes) (e : NamedExpr) :
    (e.addressed scopes).isImmediate = e.isImmediate := by
  cases e with
  | letIn _ kind _ _ _ => cases kind <;> simp [addressed, isImmediate]
  | _ => simp [addressed, isImmediate]

variable {env : Env} {v' : Value Address Layout} {v : Value Ident Unit} {es : List NamedExpr}
  {l r : NamedExpr}

theorem defer (hev : EvaluatorsInStep ev ev') (m : Machine) (policy : Policy) {e : NamedExpr}
    (he : WellScoped env e) :
    InStep SameSlot (Eval.defer ev m env policy e)
      (Eval.defer ev' m env policy (e.addressed env.scopes)) := by
  have hnow : InStep SameSlot (do return .ready (← ev m env e))
      (do return .ready (← ev' m env (e.addressed env.scopes))) := by
    refine bind (hev m env e he) ?_
    rintro v w ⟨hv, rfl⟩
    exact .pure ⟨hv, rfl⟩
  unfold Eval.defer
  rw [isImmediate_addressed]
  split
  · exact hnow
  · cases policy with
    | value => exact hnow
    | name | need => exact .pure ⟨he, rfl⟩

def AllScoped (env : Env) (es : List NamedExpr) : Prop :=
  env.Distinct ∧ listFaults env.scopes es = []

theorem AllScoped.cons {e : NamedExpr} (h : AllScoped env (e :: es)) :
    WellScoped env e ∧ AllScoped env es := by
  obtain ⟨hd, hf⟩ := h
  rw [listFaults, List.append_eq_nil_iff] at hf
  exact ⟨⟨hd, hf.1⟩, hd, hf.2⟩

/-- Frames are bound in step, slot by slot. -/
theorem bindEach (hev : EvaluatorsInStep ev ev') (m : Machine) (bs : List Binding)
    (hes : AllScoped env es) :
    InStep (fun _ _ => True) (Eval.bindEach ev m env bs es)
      (Eval.bindEach ev' m env bs (listAddressed env.scopes es)) := by
  induction bs generalizing es with
  | nil =>
    cases es with
    | nil | cons => exact .pure trivial
  | cons b bs ih =>
    cases es with
    | nil => exact .pure trivial
    | cons e es =>
      obtain ⟨he, hes⟩ := hes.cons
      refine bind (defer hev m _ he) ?_
      rintro x y ⟨hx, rfl⟩
      refine bind (modify (fun s hs => hs.setSlot b.slot hx) (fun s => ?_))
        (fun _ _ _ => ih hes)
      exact (Store.setSlot_addressed s b.slot x).symm

/-- A new frame is the same on both sides, and it declares the names it is given. -/
theorem declare (names : List String) :
    InStep (fun f g => f = g ∧ f.map Binding.name = names) (EvalOps.newFrame names)
      (EvalOps.newFrame names) := by
  refine modifyGet (fun s hs => hs.newFrame names) (fun s => ?_) (fun s => ?_)
  · rw [Store.newFrame_addressed]
  · rw [Store.newFrame_addressed]
    exact ⟨rfl, Store.map_name_newFrame s names⟩

/-! ## Operators -/

theorem sameAtom_addressed (v w : Value Ident Unit) :
    Eval.sameAtom v.addressed w.addressed = Eval.sameAtom v w := by
  cases v <;> cases w <;> rfl

/-- Comparing values in step comes to the same answer. -/
theorem equals (hev : EvaluatorsInStep ev ev') (n : Nat) {w : Value Ident Unit}
    {w' : Value Address Layout} (hv : SameValue v v') (hw : SameValue w w') :
    InStep Eq (Eval.equals ev n v w) (Eval.equals ev' n v' w') := by
  induction n generalizing v w v' w' with
  | zero => exact .exhausted
  | succ n ih =>
    obtain ⟨hv, rfl⟩ := hv
    obtain ⟨hw, rfl⟩ := hw
    have hatom : InStep Eq (Pure.pure (Eval.sameAtom v w) : Eval Ident Unit Bool)
        (Pure.pure (Eval.sameAtom v.addressed w.addressed)) :=
      .pure (sameAtom_addressed v w).symm
    cases v with
    | pair h t =>
      cases w with
      | pair h' t' =>
        rw [Value.addressed, Value.addressed, Eval.equals, Eval.equals, Eval.equalsBy,
          Eval.equalsBy]
        split
        · exact .pure rfl
        · refine bind (force hev _ h) (fun a a' ha => ?_)
          refine bind (force hev _ h') (fun b b' hb => ?_)
          refine bind (ih ha hb) ?_
          rintro r _ rfl
          split
          · refine bind (forceTail n hev t) (fun a a' ha => ?_)
            exact bind (forceTail n hev t') (fun b b' hb => ih ha hb)
          · exact .pure rfl
      | _ => exact hatom
    | _ => cases w <;> exact hatom

theorem isUnbound_of_checkedInt {op : String} {k : Int} {e : EvalError}
    (h : checkedInt op k = .error e) : e.isUnbound = false := by
  unfold checkedInt at h
  split at h
  · cases h
  · cases h
    rfl

theorem isUnbound_of_onInts {op : BinaryOp} {a b : Int} {e : EvalError}
    (h : op.onInts a b = .error e) : e.isUnbound = false := by
  have hmap : ∀ {k : Int}, (checkedInt op.symbol k).map Scalar.int = .error e →
      e.isUnbound = false := by
    intro k hk
    rcases hc : checkedInt op.symbol k with e' | k'
    · rw [hc] at hk
      cases hk
      exact isUnbound_of_checkedInt hc
    · rw [hc] at hk
      cases hk
  cases op with
  | add | sub | mul => exact hmap h
  | div =>
    by_cases hb : b = 0
    · rw [BinaryOp.onInts, if_pos hb] at h
      cases h
      rfl
    · rw [BinaryOp.onInts, if_neg hb] at h
      exact hmap h
  | _ => cases h <;> rfl

theorem unary (n : Nat) (op : UnaryOp) (hv : SameValue v v') :
    InStep SameValue (Eval.unary n op v) (Eval.unary n op v') := by
  have hbad : InStep SameValue (Eval.mismatch n op.symbol v) (Eval.mismatch n op.symbol v') :=
    mismatch n op.symbol hv
  obtain ⟨hv, rfl⟩ := hv
  cases op with
  | neg =>
    cases v with
    | int k =>
      refine bind (ofExcept (negate k) (fun _ => isUnbound_of_checkedInt)) ?_
      rintro r _ rfl
      exact .pure ⟨trivial, rfl⟩
    | _ => exact hbad
  | not =>
    cases v with
    | bool b => exact .pure ⟨trivial, rfl⟩
    | _ => exact hbad
  | deref =>
    cases v with
    | ref i =>
      refine bind get ?_
      rintro s _ ⟨hs, rfl⟩
      exact .pure ⟨hs.cells i, Store.cell_addressed s i⟩
    | _ => exact hbad
  | ref =>
    have hnew : InStep SameValue (MonadState.modifyGet (fun s => s.newRef v) : Eval Ident Unit _)
        (MonadState.modifyGet (fun s => s.newRef v.addressed)) := by
      refine modifyGet (fun s hs => hs.newRef hv) (fun s => ?_) (fun s => ⟨trivial, ?_⟩)
      · rw [Store.newRef_addressed]
      · rw [Store.newRef_addressed]
    cases v <;> exact hnew

theorem arithmetic (n : Nat) (op : BinaryOp) {w : Value Ident Unit} {w' : Value Address Layout}
    (hv : SameValue v v') (hw : SameValue w w') :
    InStep SameValue (Eval.arithmetic n op v w) (Eval.arithmetic n op v' w') := by
  have hleft : InStep SameValue (Eval.mismatch n op.symbol v) (Eval.mismatch n op.symbol v') :=
    mismatch n op.symbol hv
  have hright : InStep SameValue (Eval.mismatch n op.symbol w) (Eval.mismatch n op.symbol w') :=
    mismatch n op.symbol hw
  obtain ⟨-, rfl⟩ := hv
  obtain ⟨-, rfl⟩ := hw
  cases v with
  | int a =>
    cases w with
    | int b =>
      refine bind (ofExcept (op.onInts a b) (fun _ => isUnbound_of_onInts)) ?_
      rintro r _ rfl
      cases r <;> exact .pure ⟨trivial, rfl⟩
    | _ => exact hright
  | _ => exact hleft

theorem logical (n : Nat) (hev : EvaluatorsInStep ev ev') (m : Machine) (op : BinaryOp)
    (decisive : Bool) (hl : WellScoped env l) (hr : WellScoped env r) :
    InStep SameValue (Eval.logical n ev m env op decisive l r)
      (Eval.logical n ev' m env op decisive (l.addressed env.scopes)
        (r.addressed env.scopes)) := by
  refine bind (hev m env l hl) ?_
  intro v v' hv
  have hbad : InStep SameValue (Eval.mismatch n op.symbol v) (Eval.mismatch n op.symbol v') :=
    mismatch n op.symbol hv
  obtain ⟨hv, rfl⟩ := hv
  cases v with
  | bool b =>
    simp only [Value.addressed]
    split
    · exact .pure ⟨trivial, rfl⟩
    · refine bind (hev m env r hr) ?_
      intro w w' hw
      have hbad : InStep SameValue (Eval.mismatch n op.symbol w)
          (Eval.mismatch n op.symbol w') := mismatch n op.symbol hw
      obtain ⟨hw, rfl⟩ := hw
      cases w with
      | bool c => exact .pure ⟨trivial, rfl⟩
      | _ => exact hbad
  | _ => exact hbad

theorem assign (n : Nat) (hev : EvaluatorsInStep ev ev') (m : Machine) (hl : WellScoped env l)
    (hr : WellScoped env r) :
    InStep SameValue (Eval.assign n ev m env l r)
      (Eval.assign n ev' m env (l.addressed env.scopes) (r.addressed env.scopes)) := by
  refine bind (hev m env l hl) ?_
  intro v v' hv
  have hbad : InStep SameValue (Eval.mismatch n BinaryOp.assign.symbol v)
      (Eval.mismatch n BinaryOp.assign.symbol v') := mismatch n _ hv
  obtain ⟨hv, rfl⟩ := hv
  cases v with
  | ref i =>
    refine bind (hev m env r hr) ?_
    rintro w _ ⟨hw, rfl⟩
    refine bind (modify (fun s hs => hs.setCell i hw) (fun s => ?_))
      (fun _ _ _ => .pure ⟨trivial, rfl⟩)
    exact (Store.setCell_addressed s i w).symm
  | _ => exact hbad

theorem binary (n : Nat) (hev : EvaluatorsInStep ev ev') (m : Machine) (op : BinaryOp)
    (hl : WellScoped env l) (hr : WellScoped env r) :
    InStep SameValue (Eval.binary (Eval.equals ev n) n ev m env op l r)
      (Eval.binary (Eval.equals ev' n) n ev' m env op (l.addressed env.scopes)
        (r.addressed env.scopes)) := by
  -- all operators but three evaluate both operands before they do anything else
  have hboth : ∀ {f : Value Ident Unit → Value Ident Unit → Eval Ident Unit (Value Ident Unit)}
      {g : Value Address Layout → Value Address Layout →
        Eval Address Layout (Value Address Layout)},
      (∀ v v' w w', SameValue v v' → SameValue w w' → InStep SameValue (f v w) (g v' w')) →
      InStep SameValue (do f (← ev m env l) (← ev m env r))
        (do g (← ev' m env (l.addressed env.scopes)) (← ev' m env (r.addressed env.scopes))) := by
    intro f g hfg
    refine bind (hev m env l hl) (fun v v' hv => ?_)
    exact bind (hev m env r hr) (fun w w' hw => hfg v v' w w' hv hw)
  cases op with
  | and => exact logical n hev m .and false hl hr
  | or => exact logical n hev m .or true hl hr
  | assign => exact assign n hev m hl hr
  | eq | ne =>
    refine hboth (fun v v' w w' hv hw => bind (equals hev n hv hw) ?_)
    rintro b _ rfl
    exact .pure ⟨trivial, rfl⟩
  | _ => exact hboth (fun v v' w w' hv hw => arithmetic n _ hv hw)

/-! ## Application -/

theorem cons (n : Nat) (hev : EvaluatorsInStep ev ev') (m : Machine) {h t : NamedExpr}
    (hh : WellScoped env h) (ht : WellScoped env t) :
    InStep SameValue (Eval.cons n ev m env h t)
      (Eval.cons n ev' m env (h.addressed env.scopes) (t.addressed env.scopes)) := by
  refine bind (defer hev m _ hh) ?_
  rintro x _ ⟨hx, rfl⟩
  refine bind (defer hev m _ ht) ?_
  rintro y _ ⟨hy, rfl⟩
  have hnew : InStep SameValue (MonadState.modifyGet (fun s => s.newPair x y) : Eval Ident Unit _)
      (MonadState.modifyGet (fun s => s.newPair x.addressed y.addressed)) := by
    refine modifyGet (fun s hs => hs.newPair hx hy) (fun s => ?_) (fun s => ⟨trivial, ?_⟩)
    · rw [Store.newPair_addressed]
    · rw [Store.newPair_addressed]
  cases m.config.cons with
  | value =>
    cases y with
    | ready v =>
      simp only [Slot.addressed, Value.isList_addressed]
      split
      · exact hnew
      · refine bind (shown n ⟨hy, rfl⟩) ?_
        rintro s _ rfl
        exact .throw (.refl _) rfl
    | _ => exact hnew
  | name | need => exact hnew

theorem select (n : Nat) (p : Prim) {part : Nat → Nat → Eval Ident Unit (Value Ident Unit)}
    {part' : Nat → Nat → Eval Address Layout (Value Address Layout)}
    (hpart : ∀ h t, InStep SameValue (part h t) (part' h t)) (hv : SameValue v v') :
    InStep SameValue (Eval.select n p part v) (Eval.select n p part' v') := by
  have hbad : InStep SameValue (do MonadExcept.throw (.notAList p.name (← Eval.shown n v)))
      (do MonadExcept.throw (.notAList p.name (← Eval.shown n v'))) := by
    refine bind (shown n hv) ?_
    rintro t _ rfl
    exact .throw (.refl _) rfl
  obtain ⟨-, rfl⟩ := hv
  cases v with
  | pair h t => exact hpart h t
  | null => exact .throw (.refl _) rfl
  | _ => exact hbad

theorem primitive (n : Nat) (hev : EvaluatorsInStep ev ev') (p : Prim) (hv : SameValue v v') :
    InStep SameValue (Eval.primitive n ev p v) (Eval.primitive n ev' p v') := by
  have hbad : InStep SameValue (Eval.mismatch n p.name v) (Eval.mismatch n p.name v') :=
    mismatch n p.name hv
  have hsel := hv
  obtain ⟨-, rfl⟩ := hv
  cases p with
  | arity =>
    cases v with
    | closure | prim => exact .pure ⟨trivial, rfl⟩
    | _ => exact hbad
  | first => exact select n .first (fun h t => force hev _ h) hsel
  | rest => exact select n .rest (fun h t => forceTail n hev t) hsel
  | cons => exact hbad
  | isFunction => exact .pure ⟨trivial, by rw [Value.isFunction_addressed]; rfl⟩
  | isList => exact .pure ⟨trivial, by rw [Value.isList_addressed]; rfl⟩
  | _ => cases v <;> exact .pure ⟨trivial, rfl⟩

theorem length_listAddressed (scopes : Scopes) (es : List NamedExpr) :
    (listAddressed scopes es).length = es.length := by
  induction es with
  | nil => rfl
  | cons e es ih => rw [listAddressed, List.length_cons, ih, List.length_cons]

theorem applyPrim (n : Nat) (hev : EvaluatorsInStep ev ev') (m : Machine) (p : Prim)
    {args : List NamedExpr} (hargs : AllScoped env args) :
    InStep SameValue (Eval.applyPrim n ev m env p args)
      (Eval.applyPrim n ev' m env p (listAddressed env.scopes args)) := by
  have hlen := length_listAddressed env.scopes args
  match args, hargs with
  | [], _ => cases p <;> exact .throw (.refl _) rfl
  | [e], hargs =>
    obtain ⟨he, -⟩ := hargs.cons
    have hone : InStep SameValue (do Eval.primitive n ev p (← ev m env e))
        (do Eval.primitive n ev' p (← ev' m env (e.addressed env.scopes))) :=
      bind (hev m env e he) (fun v v' hv => primitive n hev p hv)
    cases p with
    | cons => exact .throw (.refl _) rfl
    | _ => exact hone
  | [h, t], hargs =>
    obtain ⟨hh, ht⟩ := hargs.cons
    cases p with
    | cons => exact cons n hev m hh ht.cons.1
    | _ => exact .throw (.refl _) rfl
  | a :: b :: c :: rest, _ =>
    have hbad : InStep SameValue
        (MonadExcept.throw (.arityMismatch p.name p.parameters (a :: b :: c :: rest).length) :
          Eval Ident Unit (Value Ident Unit))
        (MonadExcept.throw (.arityMismatch p.name p.parameters
          (listAddressed env.scopes (a :: b :: c :: rest)).length)) := by
      rw [hlen]
      exact .throw (.refl _) rfl
    cases p <;> exact hbad

/-- A closure and its addressed form are called in step. -/
theorem applyClosure (hev : EvaluatorsInStep ev ev') (m : Machine) {f : NamedExpr}
    {c : Closure Ident Unit} (hc : c.WellScoped) {args : List NamedExpr}
    (hargs : AllScoped env args) :
    InStep SameValue (Eval.applyClosure ev m env f c args)
      (Eval.applyClosure ev' m env (f.addressed env.scopes) c.addressed
        (listAddressed env.scopes args)) := by
  unfold Eval.applyClosure Eval.applyClosureBy
  rw [length_listAddressed]
  change InStep SameValue _ (if args.length ≠ c.arity then _ else _)
  split
  · exact .throw ⟨_, rfl⟩ rfl
  · refine bind (declare (c.params.map Ident.name)) ?_
    rintro frame _ ⟨rfl, hnames⟩
    refine bind (bindEach hev m frame hargs) (fun _ _ _ => nested m ?_)
    have hbody : WellScoped (frame :: c.env) c.body := by
      refine ⟨?_, ?_⟩
      · rw [Env.distinct_cons, hnames]
        exact ⟨hc.params, hc.distinct⟩
      · rw [Env.scopes_cons, hnames]
        exact hc.faults
    have h := hev m (frame :: c.env) c.body hbody
    rw [Env.scopes_cons, hnames] at h
    exact h

theorem sequence (hev : EvaluatorsInStep ev ev') (m : Machine) (hv : SameValue v v')
    (hes : AllScoped env es) :
    InStep SameValue (Eval.sequence ev m env v es)
      (Eval.sequence ev' m env v' (listAddressed env.scopes es)) := by
  induction es generalizing v v' with
  | nil => exact .pure hv
  | cons e es ih =>
    obtain ⟨he, hes⟩ := hes.cons
    exact bind (hev m env e he) (fun w w' hw => ih hw hes)

/-! ## Expressions -/

theorem defNames_addressed (scopes : Scopes) (ds : List (Ident × NamedExpr)) :
    defNames (defsAddressed scopes ds) = defNames ds := by
  induction ds with
  | nil => rfl
  | cons d ds ih =>
    obtain ⟨x, e⟩ := d
    exact congrArg (x.name :: ·) ih

theorem defValues_addressed (scopes : Scopes) (ds : List (Ident × NamedExpr)) :
    defValues (defsAddressed scopes ds) = listAddressed scopes (defValues ds) := by
  induction ds with
  | nil => rfl
  | cons d ds ih =>
    obtain ⟨x, e⟩ := d
    exact congrArg (e.addressed scopes :: ·) ih

theorem listFaults_defValues (scopes : Scopes) (ds : List (Ident × NamedExpr)) :
    listFaults scopes (defValues ds) = defsFaults scopes ds := by
  induction ds with
  | nil => rfl
  | cons d ds ih =>
    obtain ⟨x, e⟩ := d
    rw [defsFaults, defFaults, ← ih]
    rfl

theorem map_name_fst (ds : List (Ident × NamedExpr)) :
    (ds.map Prod.fst).map Ident.name = defNames ds := by
  rw [defNames, List.map_map]
  rfl

/-- A name and its address lead to the same slot. -/
theorem variable_addressed (hev : EvaluatorsInStep ev ev') {sp : Span} {x : Ident}
    (hx : WellScoped env (.var sp x)) :
    InStep SameValue
      (match Variable.lookup env x with
        | some b => Eval.force ev b.name b.slot
        | none => MonadExcept.throw (.unboundVariable (Variable.text x)))
      (match Variable.lookup env ((env.scopes.address? x.name).getD ⟨0, 0⟩) with
        | some b => Eval.force ev' b.name b.slot
        | none => MonadExcept.throw
          (.unboundVariable (Variable.text ((env.scopes.address? x.name).getD ⟨0, 0⟩)))) := by
  have hsome : (env.scopes.address? x.name).isSome := by
    have hf := hx.faults
    rw [scopeFaults] at hf
    by_contra hnone
    rw [if_neg hnone] at hf
    cases hf
  obtain ⟨a, ha⟩ := Option.isSome_iff_exists.mp hsome
  obtain ⟨b, hb⟩ := Option.isSome_iff_exists.mp (Env.isSome_at? ha)
  have hfind : Variable.lookup env x = some b := (Env.find?_eq_at? hx.distinct ha).trans hb
  have hat : Variable.lookup env a = some b := hb
  rw [ha, Option.getD_some, hfind, hat]
  exact force hev b.name b.slot

/-- A definition form: its frame is made, the definitions are bound in the scope of the form, and
the body is evaluated inside. -/
theorem letIn (hev : EvaluatorsInStep ev ev') (m : Machine) (scope : Frame → Env)
    {scopes : Scopes} {ds : List (Ident × NamedExpr)} {body : NamedExpr} (henv : env.Distinct)
    (hnames : (defNames ds).Nodup)
    (hscope : ∀ frame : Frame, frame.map Binding.name = defNames ds →
      (scope frame).scopes = scopes ∧ (scope frame).Distinct) (hdefs : defsFaults scopes ds = [])
    (hbody : body.scopeFaults (defNames ds :: env.scopes) = []) :
    InStep SameValue
      (do
        let frame ← EvalOps.newFrame (defNames ds)
        Eval.bindEach ev m (scope frame) frame (defValues ds)
        ev m (frame :: env) body)
      (do
        let frame ← EvalOps.newFrame (defNames ds)
        Eval.bindEach ev' m (scope frame) frame (listAddressed scopes (defValues ds))
        ev' m (frame :: env) (body.addressed (defNames ds :: env.scopes))) := by
  refine bind (declare (defNames ds)) ?_
  rintro frame _ ⟨rfl, hframe⟩
  obtain ⟨rfl, hdistinct⟩ := hscope frame hframe
  rw [← listFaults_defValues] at hdefs
  refine bind (bindEach hev m frame ⟨hdistinct, hdefs⟩) (fun _ _ _ => ?_)
  have hscopes : Env.scopes (frame :: env) = defNames ds :: env.scopes := by
    rw [Env.scopes_cons, hframe]
  rw [← hscopes] at hbody ⊢
  refine hev m (frame :: env) body ⟨?_, hbody⟩
  rw [Env.distinct_cons, hframe]
  exact ⟨hnames, henv⟩

/-- One level of the recursion goes in step if the levels below do. -/
theorem step (n : Nat) (hev : EvaluatorsInStep ev ev') :
    EvaluatorsInStep (Eval.step n ev) (Eval.step n ev') := by
  intro m env e he
  obtain ⟨henv, hf⟩ := he
  cases e with
  | int | bool | null | prim => exact .pure ⟨trivial, rfl⟩
  | var sp x => exact variable_addressed hev ⟨henv, hf⟩
  | unary sp op e =>
    rw [scopeFaults] at hf
    exact bind (hev m env e ⟨henv, hf⟩) (fun v v' hv => unary n op hv)
  | binary sp op l r =>
    rw [scopeFaults, List.append_eq_nil_iff] at hf
    exact binary n hev m op ⟨henv, hf.1⟩ ⟨henv, hf.2⟩
  | app sp f args =>
    rw [scopeFaults, List.append_eq_nil_iff] at hf
    have hargs : AllScoped env args := ⟨henv, hf.2⟩
    refine bind (hev m env f ⟨henv, hf.1⟩) ?_
    intro v v' hv
    have hbad : InStep SameValue (do MonadExcept.throw (.notAFunction (← Eval.shown n v)))
        (do MonadExcept.throw (.notAFunction (← Eval.shown n v'))) := by
      refine bind (shown n hv) ?_
      rintro t _ rfl
      exact .throw (.refl _) rfl
    obtain ⟨hv, rfl⟩ := hv
    cases v with
    | closure i c => exact applyClosure hev m hv hargs
    | prim p => exact applyPrim n hev m p hargs
    | _ => exact hbad
  | map sp params layout body =>
    rw [scopeFaults, List.append_eq_nil_iff] at hf
    refine modifyGet (fun s hs => hs.newClosure _) (fun s => rfl) (fun s => ⟨?_, rfl⟩)
    exact ⟨henv, (nodup_of_repeats_eq_nil hf.1).1, hf.2⟩
  | cond sp t a b =>
    rw [scopeFaults, List.append_eq_nil_iff, List.append_eq_nil_iff] at hf
    obtain ⟨⟨ht, ha⟩, hb⟩ := hf
    refine bind (hev m env t ⟨henv, ht⟩) ?_
    intro v v' hv
    have hbad : InStep SameValue (Eval.mismatch n "if" v) (Eval.mismatch n "if" v') :=
      mismatch n "if" hv
    obtain ⟨-, rfl⟩ := hv
    cases v with
    | bool c =>
      cases c with
      | true => exact hev m env a ⟨henv, ha⟩
      | false => exact hev m env b ⟨henv, hb⟩
    | _ => exact hbad
  | letIn sp kind defs layout body =>
    cases kind with
    | plain =>
      rw [scopeFaults, List.append_eq_nil_iff, List.append_eq_nil_iff] at hf
      obtain ⟨⟨hdefs, hrep⟩, hbody⟩ := hf
      have hnames := (nodup_of_repeats_eq_nil hrep).1
      rw [map_name_fst] at hnames
      have h := letIn hev m (fun _ => env) henv hnames
        (fun frame _ => ⟨rfl, henv⟩) hdefs hbody
      rw [← defValues_addressed] at h
      simpa only [Eval.stepBy, addressed, defNames_addressed] using h
    | recursive =>
      rw [scopeFaults, List.append_eq_nil_iff, List.append_eq_nil_iff] at hf
      obtain ⟨⟨hrep, hdefs⟩, hbody⟩ := hf
      have hnames := (nodup_of_repeats_eq_nil hrep).1
      rw [map_name_fst] at hnames
      have h := letIn hev m (fun frame => frame :: env) henv hnames
        (fun frame hframe => ⟨by rw [Env.scopes_cons, hframe],
          by rw [Env.distinct_cons, hframe]; exact ⟨hnames, henv⟩⟩) hdefs hbody
      rw [← defValues_addressed] at h
      simpa only [Eval.stepBy, addressed, defNames_addressed] using h
  | block sp es =>
    rw [scopeFaults] at hf
    have hunit : SameValue .unit .unit := ⟨trivial, rfl⟩
    exact sequence hev m hunit ⟨henv, hf⟩

theorem eval (n : Nat) : EvaluatorsInStep (Machine.eval n) (Machine.eval n) := by
  induction n with
  | zero => exact fun m env e he => .exhausted
  | succ n ih => exact step n ih

/-! ## Rendering -/

/-- Rendering a value and its addressed form goes in step. -/
theorem render (n : Nat) :
    (∀ v v', SameValue v v' → InStep Eq (Value.render n v) (Value.render n v')) ∧
      ∀ h t, InStep Eq (Value.renderItems n h t : Eval Ident Unit String)
        (Value.renderItems n h t : Eval Address Layout String) := by
  induction n with
  | zero => exact ⟨fun v v' hv => .exhausted, fun h t => .exhausted⟩
  | succ n ih =>
    obtain ⟨ihv, ihi⟩ := ih
    refine ⟨?_, ?_⟩
    · rintro v _ ⟨hv, rfl⟩
      cases v with
      | ref i =>
        refine bind get ?_
        rintro s _ ⟨hs, rfl⟩
        refine bind (ihv _ _ ⟨hs.cells i, Store.cell_addressed s i⟩) ?_
        rintro t _ rfl
        exact .pure rfl
      | pair h t =>
        refine bind (ihi h t) ?_
        rintro s _ rfl
        exact .pure rfl
      | _ => exact .pure rfl
    · intro h t
      refine bind (force (eval n) _ h) (fun v v' hv => bind (ihv v v' hv) ?_)
      rintro head _ rfl
      refine bind (forceTail n (eval n) t) ?_
      rintro w _ ⟨hw, rfl⟩
      cases w with
      | pair h t =>
        refine bind (ihi h t) ?_
        rintro s _ rfl
        exact .pure rfl
      | _ => exact .pure rfl

end InStep

/-! ## What an observer sees -/

section

variable {α β σ τ : Type}

/-- Two outcomes are the same: there is none on either side, or both are failures that differ at
most in the text of a callee, or both are results between which `Q` holds. -/
inductive SameOutcome (Q : α → σ → β → τ → Prop) :
    Option (Except EvalError α × σ) → Option (Except EvalError β × τ) → Prop
  | none : SameOutcome Q none none
  | error {e e' : EvalError} {s : σ} {t : τ} (h : e.SameButCallee e') :
      SameOutcome Q (some (.error e, s)) (some (.error e', t))
  | ok {a : α} {b : β} {s : σ} {t : τ} (h : Q a s b t) :
      SameOutcome Q (some (.ok a, s)) (some (.ok b, t))

theorem Agree.sameOutcome {Q : α → β → Prop}
    {Q' : α → Store Ident Unit → β → Store Address Layout → Prop}
    {o : Option (Except EvalError α × Store Ident Unit)}
    {o' : Option (Except EvalError β × Store Address Layout)} (h : Agree Q o o')
    (hQ : ∀ a b s, Q a b → s.WellScoped → Q' a s b s.addressed) : SameOutcome Q' o o' := by
  cases h with
  | none => exact .none
  | error he _ _ => exact .error he
  | ok hab hs => exact .ok (hQ _ _ _ hab hs)

end

/-- Two values in their stores cannot be told apart: they are of the same kind and have the same
text, writing them in full gives the same, and so does their text after that. -/
structure Indistinguishable {V L V' L' : Type} [Variable V] [Variable V'] (v : Value V L)
    (s : Store V L) (w : Value V' L') (t : Store V' L') : Prop where
  kind : v.kind = w.kind
  text : ∀ n, v.text s n = w.text t n
  render : ∀ n, SameOutcome (fun a s b t => a = b ∧ ∀ n, v.text s n = w.text t n)
    (outcome (v.render n) s) (outcome (w.render n) t)

theorem SameValue.indistinguishable {v : Value Ident Unit} {w : Value Address Layout}
    (h : SameValue v w) {s : Store Ident Unit} (hs : s.WellScoped) :
    Indistinguishable v s w s.addressed := by
  have hv := h
  obtain ⟨-, rfl⟩ := h
  refine ⟨(Value.kind_addressed v).symm, fun n => (text_addressed s n v).symm, fun n => ?_⟩
  refine ((InStep.render n).1 v _ hv s hs).sameOutcome ?_
  rintro a _ s' rfl -
  exact ⟨rfl, fun n => (text_addressed s' n v).symm⟩

/-- A program and its resolved form have the same outcome under every configuration, and the
values they give cannot be told apart. -/
theorem evaluate_resolve {p : NamedExpr} {r : AddressedExpr} (h : p.resolve = .ok r)
    (config : Config) (n : Nat) :
    SameOutcome Indistinguishable (evaluate n config p) (evaluate n config r) := by
  obtain ⟨hfaults, rfl⟩ := Expr.resolve_eq_ok_iff.mp h
  have hs : ((Store.empty : Store Ident Unit).newMachine config).2.WellScoped :=
    ⟨Store.WellScoped.empty.slots, Store.WellScoped.empty.cells⟩
  rw [evaluate_eq_outcome, evaluate_eq_outcome, ← Store.newMachine_addressed]
  refine (InStep.eval n ⟨config, 0⟩ [] p ⟨Env.distinct_nil, hfaults⟩ _ hs).sameOutcome ?_
  intro v w s hvw hs'
  exact hvw.indistinguishable hs'

/-- The factorial of five, by a recursive function whose parameter has the name of a definition
in the scope of the call. -/
def factorialOfFive : NamedExpr :=
  let x : Ident := .synthetic "x"
  let f : Ident := .synthetic "f"
  let int (k : Int) : NamedExpr := .int .synthetic k
  .letIn .synthetic .recursive
    [(f, .map .synthetic [x] () (.cond .synthetic (mkBinary .eq (mkVar x) (int 0)) (int 1)
      (mkBinary .mul (mkVar x) (mkApp (mkVar f) [mkBinary .sub (mkVar x) (int 1)]))))] ()
    (.letIn .synthetic .plain [(x, int 5)] () (mkApp (mkVar f) [mkVar x]))

theorem evaluate_resolve_factorial :
    factorialOfFive.resolve = .ok (factorialOfFive.addressed []) ∧
      SameOutcome Indistinguishable (evaluate 100 .eager factorialOfFive)
        (evaluate 100 .eager (factorialOfFive.addressed [])) :=
by
  have h : factorialOfFive.resolve = .ok (factorialOfFive.addressed []) := by
    rw [Expr.resolve_eq, show factorialOfFive.scopeFaults [] = [] by decide]
  exact ⟨h, evaluate_resolve h .eager 100⟩

end Mapling
