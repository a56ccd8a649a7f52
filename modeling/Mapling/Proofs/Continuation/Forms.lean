import Mapling.Proofs.Continuation.Tracking

/-! # Forms that track each other

The remaining forms of the language preserve tracking as its operators do: conditionals, blocks,
primitives that are called by their names, and definitions.

A form with definitions declares a frame on both sides. Its slots are linked at once, while
neither side has initialised them, and are then filled in pairs. Filling a slot changes a slot
that was there, so a stage of this kind is later only than those before the frame was declared;
that is all that what comes after the form asks for. -/

namespace Mapling

variable {i : Nat} {v v' : NamedValue} {p : Prim} {args es es' args' : List NamedExpr}
  {defs defs' : List (Ident × NamedExpr)} {b b' : NamedExpr}

namespace Stage

variable {σ : Scheme} {S S' : Stage}

/-- A slot on the left is filled that was not there at the earlier stage. -/
theorem Later.setLeft (h : S.Later S') (hi : S.left.slots.size ≤ i) (x : Slot Ident Unit) :
    S.Later { S' with left := S'.left.setSlot i x } :=
  ⟨h.grows, h.left.setSlot hi x, h.right, h.slots, h.made, h.closures⟩

variable {j : Nat}

/-- A slot on the right is filled that was not there at the earlier stage. -/
theorem Later.setRight (h : S.Later S') (hj : S.right.slots.size ≤ j) (x : Slot Ident Unit) :
    S.Later { S' with right := S'.right.setSlot j x } :=
  ⟨h.grows, h.left, h.right.setSlot hj x, h.slots, h.made, h.closures⟩

/-- Linked slots are filled with values that are the same. -/
theorem related_setSlot (h : σ.Related S) (hl : .slot i j ∈ S.links) (hv : σ.Same S.links v v') :
    σ.Related ⟨S.links, S.left.setSlot i (.ready v), S.right.setSlot j (.ready v')⟩ := by
  refine ⟨fun l hl' => ?_, h.oneToOne⟩
  have hold := h.holds l hl'
  cases l with
  | slot i' j' =>
    obtain ⟨hi', hj', hsame⟩ := hold
    refine ⟨by simpa using hi', by simpa using hj', ?_⟩
    dsimp only
    rw [Store.slot_setSlot, Store.slot_setSlot]
    by_cases heq : i = i'
    · have heq' : j = j' := (h.oneToOne.slot hl hl').mp heq
      rw [if_pos ⟨heq, heq ▸ hi'⟩, if_pos ⟨heq', heq' ▸ hj'⟩]
      exact .ready hv
    · have heq' : ¬ j = j' := fun hj => heq ((h.oneToOne.slot hl hl').mpr hj)
      rw [if_neg (fun hc => heq hc.1), if_neg (fun hc => heq' hc.1)]
      exact hsame
  | cell | closure | prim => exact hold

def newFrame (S : Stage) (xs : List String) : Stage :=
  ⟨rowLinks S.left.slots.size S.right.slots.size xs.length ++ S.links, (S.left.newFrame xs).2,
    (S.right.newFrame xs).2⟩

theorem later_newFrame (S : Stage) (xs : List String) : S.Later (S.newFrame xs) :=
  later_newRow (Store.kept_newFrame _ _) (Store.kept_newFrame _ _) rfl xs.length

theorem related_newFrame (h : σ.Related S) (xs : List String) : σ.Related (S.newFrame xs) := by
  refine related_newRow h (Store.kept_newFrame _ _) (Store.kept_newFrame _ _) rfl rfl rfl rfl
    (Store.size_newFrame _ _) (Store.size_newFrame _ _) (fun k _ => ?_)
  rw [Store.slot_newFrame, Store.slot_newFrame, Store.slot_eq_uninit (by omega),
    Store.slot_eq_uninit (by omega)]
  exact .uninit

def newFrameRight (S : Stage) (xs : List String) : Stage :=
  { S with right := (S.right.newFrame xs).2 }

theorem later_newFrameRight (S : Stage) (xs : List String) : S.Later (S.newFrameRight xs) :=
  later_right (Store.kept_newFrame _ _)

theorem related_newFrameRight (h : σ.Related S) (xs : List String) :
    σ.Related (S.newFrameRight xs) :=
  h.keepRight (Store.kept_newFrame _ _) rfl le_rfl

def fillRight (S : Stage) (j : Nat) (v' : NamedValue) : Stage :=
  { S with right := S.right.setSlot j (.ready v') }

theorem related_fillRight (h : σ.Related S) (hj : ∀ i, .slot i j ∉ S.links) (v' : NamedValue) :
    σ.Related (S.fillRight j v') := by
  refine h.setRight (fun i k hl => ?_) (fun i k hl => ⟨(h.cell hl).2.1, rfl⟩) le_rfl
  have hne : j ≠ k := fun heq => hj i (heq ▸ hl)
  exact ⟨by simpa using (h.slot hl).2.1, by rw [Store.slot_setSlot, if_neg (fun hc => hne hc.1)]⟩

theorem slot_fillRight (hj : j < S.right.slots.size) (v' : NamedValue) :
    (S.fillRight j v').right.slot j = .ready v' := by
  rw [fillRight, Store.slot_setSlot, if_pos ⟨rfl, hj⟩]

/-- A slot on the right that is there and not linked is not linked later. -/
theorem Later.notMem_right (h : S.Later S') (hsize : j < S.right.slots.size)
    (hj : ∀ i, .slot i j ∉ S.links) (i : Nat) : .slot i j ∉ S'.links := by
  intro hl
  rcases h.slots hl with hold | ⟨-, hsize'⟩
  · exact hj i hold
  · omega

end Stage

theorem slot_ge_of_mem_frameAt {a : Nat} {xs : List String} {b : Binding}
    (h : b ∈ frameAt a xs) : a ≤ b.slot := by
  induction xs generalizing a with
  | nil => cases h
  | cons x xs ih =>
    rcases List.mem_cons.mp h with rfl | h
    · exact le_rfl
    · have := ih h
      omega

/-- Declaring a frame takes the next slots. -/
theorem outcome_declare_bind {α : Type} (xs : List String) (f : Frame → Eval Ident Unit α)
    (s : NamedStore) :
    outcome (EvalOps.newFrame xs >>= f) s =
      outcome (f (frameAt s.slots.size xs)) (s.newFrame xs).2 := by
  rw [← Store.newFrame_fst]
  exact outcome_bind_of_ok _ rfl

/-! ## One level of a free run -/

def Eval.branch (n : Nat) (v : NamedValue) (a b : Eval Ident Unit NamedValue) :
    Eval Ident Unit NamedValue :=
  match v with
  | .bool true => a
  | .bool false => b
  | v => mismatch n "if" v

theorem Eval.branch_bind (n : Nat) (v : NamedValue) (a b : Eval Ident Unit NamedValue)
    (f : NamedValue → Eval Ident Unit NamedValue) :
    branch n v a b >>= f = branch n v (a >>= f) (b >>= f) := by
  cases v with
  | bool c => cases c <;> rfl
  | _ =>
    simp only [branch, mismatch, bind_assoc]
    rfl

theorem evalAs_cond (marker : Option EvalError) (n : Nat) (env : Env) (sp : Span)
    (t a b : NamedExpr) :
    evalAs marker (n + 1) env (.cond sp t a b) = evalAs marker n env t >>= fun v =>
      Eval.branch n v (evalAs marker n env a) (evalAs marker n env b) := by
  refine congrArg (evalAs marker n env t >>= ·) (funext fun v => ?_)
  cases v with
  | bool c => cases c <;> rfl
  | _ => rfl

theorem evalAs_letIn (marker : Option EvalError) (n : Nat) (env : Env) (sp : Span)
    (kind : LetKind) (defs : List (Ident × NamedExpr)) (b : NamedExpr) :
    evalAs marker (n + 1) env (.letIn sp kind defs () b) =
      EvalOps.newFrame (Expr.defNames defs) >>= fun frame =>
        Eval.bindEach (watched marker n) .eager (kind.scope frame env) frame
          (Expr.defValues defs) >>= fun _ => evalAs marker n (frame :: env) b := by
  cases kind <;> rfl

/-! ## One operand or two -/

section

variable {α β : Type} {R : α → β → Prop} {as : List α} {bs : List β}

theorem forall₂_one (h : List.Forall₂ R as bs) (hlength : as.length = 1) :
    ∃ a b, as = [a] ∧ bs = [b] ∧ R a b := by
  obtain ⟨a, rfl⟩ := List.length_eq_one_iff.mp hlength
  obtain ⟨b, _, hab, hnil, rfl⟩ := List.forall₂_cons_left_iff.mp h
  cases hnil
  exact ⟨a, b, rfl, rfl, hab⟩

theorem forall₂_two (h : List.Forall₂ R as bs) (hlength : as.length = 2) :
    ∃ a a' b b', as = [a, a'] ∧ bs = [b, b'] ∧ R a b ∧ R a' b' := by
  obtain ⟨a, a', rfl⟩ := List.length_eq_two.mp hlength
  obtain ⟨b, _, hab, hrest, rfl⟩ := List.forall₂_cons_left_iff.mp h
  obtain ⟨b', _, hab', hnil, rfl⟩ := List.forall₂_cons_left_iff.mp hrest
  cases hnil
  exact ⟨a, a', b, b', rfl, rfl, hab, hab'⟩

end

theorem Prim.parameters_of_ne_cons (h : p ≠ .cons) : p.parameters = 1 := by
  cases p with
  | cons => exact absurd rfl h
  | _ => rfl

section

variable (n : Nat) (ev : Evaluator Ident Unit) (env : Env) {p : Prim}

theorem Eval.applyPrim_of_length_ne (h : args.length ≠ p.parameters) :
    Eval.applyPrim n ev .eager env p args =
      throw (.arityMismatch p.name p.parameters args.length) := by
  match args with
  | [] => cases p <;> rfl
  | [e] =>
    cases p with
    | cons => rfl
    | _ => exact absurd rfl h
  | [e, e'] =>
    cases p with
    | cons => exact absurd rfl h
    | _ => rfl
  | e :: e' :: e'' :: args => cases p <;> rfl

theorem Eval.applyPrim_one (h : p.parameters = 1) (e : NamedExpr) :
    Eval.applyPrim n ev .eager env p [e] = ev .eager env e >>= Eval.primitive n ev p := by
  cases p with
  | cons => cases h
  | _ => rfl

end

namespace Scheme

variable {σ : Scheme} {N M B : Nat} {S : Stage} {F G : Rest}
variable {env' env : Env}

/-- One expression after another is bound on both sides, to slots that were not there at the
stage `S0`. -/
theorem meets_bindEach {S0 : Stage} (hes : List.Forall₂ (σ.Tracks B) es es') (hB : N + M ≤ B)
    {bs bs' : Frame} (hbs : List.Forall₂ (fun b b' => .slot b.slot b'.slot ∈ S.links) bs bs')
    (hleft : ∀ b ∈ bs, S0.left.slots.size ≤ b.slot)
    (hright : ∀ b ∈ bs', S0.right.slots.size ≤ b.slot) (hlater : S0.Later S) (hS : σ.Related S)
    (henv : σ.Envs S.links env env') {F G : Nat → Eval Ident Unit NamedValue}
    (hnext : ∀ S', S0.Later S' → S.Grown S' → σ.Related S' → S'.Meets σ N M F G) :
    S.Meets σ N M
      (fun n => Eval.bindEach (watched σ.marker n) .eager env bs es >>= fun _ => F n)
      (fun m => Eval.bindEach (watched none m) .eager env' bs' es' >>= fun _ => G m) := by
  -- the slots are beyond those of the first stage, so filling them leaves it as it was
  induction hes generalizing S bs bs' with
  | nil =>
    have hnil : ∀ marker n env (bs : Frame), Eval.bindEach
        (watched marker n) .eager env bs ([] : List NamedExpr) =
        pure () := by
      intro marker n env bs
      cases bs <;> rfl
    simp only [hnil, pure_bind]
    exact hnext S hlater (Stage.Later.refl S).grown hS
  | @cons e e' es es' he _ ih =>
    cases hbs with
    | nil => exact hnext S hlater (Stage.Later.refl S).grown hS
    | @cons b b' bs bs' hb hbs =>
      simp only [Eval.bindEach_cons _ _ Machine.isEager_eager, bind_assoc]
      refine he N M S env env' _ _ hB hS henv (fun S1 v v' hlater1 hS1 hv => ?_)
      have hl : .slot b.slot b'.slot ∈ S1.links := hlater1.grows hb
      have hlater2 : S0.Later ⟨S1.links, S1.left.setSlot b.slot (.ready v),
          S1.right.setSlot b'.slot (.ready v')⟩ :=
        ((hlater.trans hlater1).setLeft (hleft b List.mem_cons_self) _).setRight
          (hright b' List.mem_cons_self) _
      have hgrown : S.Grown ⟨S1.links, S1.left.setSlot b.slot (.ready v),
          S1.right.setSlot b'.slot (.ready v')⟩ :=
        ⟨hlater1.grows, by simpa using hlater1.right.size, hlater1.grown.slots⟩
      refine ih (S := ⟨S1.links, S1.left.setSlot b.slot (.ready v),
          S1.right.setSlot b'.slot (.ready v')⟩) (hbs.imp fun _ _ hb => hlater1.grows hb)
        (fun b hb => hleft b (List.mem_cons_of_mem _ hb))
        (fun b hb => hright b (List.mem_cons_of_mem _ hb)) hlater2
        (Stage.related_setSlot hS1 hl hv) (henv.mono hlater1.grows)
        (fun S' hlater' hgrown' hS' => hnext S' hlater' (hgrown.trans hgrown') hS')

/-- Definitions of the same names, and what comes after them. -/
theorem meets_define {kind : LetKind} (hnames : Expr.defNames defs = Expr.defNames defs')
    (hdefs : List.Forall₂ (σ.Tracks B) (Expr.defValues defs) (Expr.defValues defs'))
    (hB : N + M ≤ B) (hS : σ.Related S) (henv : σ.Envs S.links env env')
    {F G : Nat → Frame → Eval Ident Unit NamedValue}
    (hnext : ∀ S', S.Later S' → σ.Related S' →
      σ.Envs S'.links (frameAt S.left.slots.size (Expr.defNames defs) :: env)
        (frameAt S.right.slots.size (Expr.defNames defs) :: env') →
      S'.Meets σ N M (fun n => F n (frameAt S.left.slots.size (Expr.defNames defs)))
        (fun m => G m (frameAt S.right.slots.size (Expr.defNames defs)))) :
    S.Meets σ N M
      (fun n => EvalOps.newFrame (Expr.defNames defs) >>= fun frame =>
        Eval.bindEach (watched σ.marker n) .eager (kind.scope frame env) frame
          (Expr.defValues defs) >>= fun _ => F n frame)
      (fun m => EvalOps.newFrame (Expr.defNames defs') >>= fun frame =>
        Eval.bindEach (watched none m) .eager (kind.scope frame env') frame
          (Expr.defValues defs') >>= fun _ => G m frame) := by
  refine .congr_left (fun n => outcome_declare_bind _ _ _) (.congr_right
    (fun m => outcome_declare_bind _ _ _) ?_)
  rw [← hnames]
  have hlinked : List.Forall₂ (Linked (S.newFrame (Expr.defNames defs)).links)
      (frameAt S.left.slots.size (Expr.defNames defs))
      (frameAt S.right.slots.size (Expr.defNames defs)) :=
    linked_frameAt (List.subset_append_left _ _)
  have hlater := S.later_newFrame (Expr.defNames defs)
  have henv1 := henv.mono hlater.grows
  have hinner : ∀ w, (S.newFrame (Expr.defNames defs)).links ⊆ w →
      σ.Envs w (frameAt S.left.slots.size (Expr.defNames defs) :: env)
        (frameAt S.right.slots.size (Expr.defNames defs) :: env') := by
    intro w hw
    exact .cons_linked (hlinked.imp fun _ _ hb => ⟨hb.1, hw hb.2⟩) (henv1.mono hw)
  refine meets_bindEach hdefs hB (hlinked.imp fun _ _ hb => hb.2)
    (fun b hb => slot_ge_of_mem_frameAt hb) (fun b hb => slot_ge_of_mem_frameAt hb) hlater
    (Stage.related_newFrame hS _) ?_ (fun S' hlater' hgrown hS' => ?_)
  · cases kind with
    | plain => exact henv1
    | recursive => exact hinner _ (fun _ hl => hl)
  · exact hnext S' hlater' hS' (hinner _ hgrown.links)

/-- Both sides take the same branch, or the test is no boolean. -/
theorem meets_branch (hv : σ.Same S.links v v') {a b a' b' : Nat → Eval Ident Unit NamedValue}
    (ha : S.Meets σ N M a a') (hb : S.Meets σ N M b b') :
    S.Meets σ N M (fun n => Eval.branch n v (a n) (b n))
      (fun m => Eval.branch m v' (a' m) (b' m)) := by
  cases hv with
  | bool c =>
    cases c with
    | true => exact ha
    | false => exact hb
  | _ => exact .of_both_fail (Fails.mismatch _ _ _) (Fails.mismatch _ _ _)

/-- A primitive with as many arguments as it takes. The function `arity` has to mean the same. -/
theorem meets_applyPrim (hp : p = .arity → σ.surplus = 0)
    (hargs : List.Forall₂ (σ.TracksIn B S.links env env') args args')
    (hlength : args.length = p.parameters) (hB : N + M ≤ B) (hS : σ.Related S)
    (hnext : σ.Continues N M S F G) :
    S.Meets σ N M
      (fun n => Eval.applyPrim n (watched σ.marker n) .eager env p args >>= F n)
      (fun m => Eval.applyPrim m (watched none m) .eager env' p args' >>= G m) := by
  by_cases hcons : p = .cons
  · subst hcons
    obtain ⟨h, t, h', t', rfl, rfl, hh, ht⟩ := forall₂_two hargs hlength
    simp only [Eval.applyPrim, Eval.cons_value _ _ Machine.isEager_eager, bind_assoc]
    exact Tracks.operands hh ht hB hS (fun S' v v' w w' hlater hS' hv hw =>
      meets_pair hS' (hnext.later hlater) hv hw)
  · have hone := Prim.parameters_of_ne_cons hcons
    obtain ⟨e, e', rfl, rfl, he⟩ := forall₂_one hargs (hlength.trans hone)
    simp only [Eval.applyPrim_one _ _ _ hone, bind_assoc]
    refine he N M S _ _ hB hS (fun _ hl => hl) (fun S' v v' hlater hS' hv => ?_)
    by_cases harity : p = .arity
    · subst harity
      refine meets_arity hv (fun a _ => ?_)
      rw [hp rfl]
      exact (hnext.later hlater).now hS' (.int a)
    · exact meets_primitive hS' (hnext.later hlater) harity hv

/-- A primitive called by its name. The function `arity` has to mean the same. -/
theorem TracksIn.primApp {w : List Link} (sp sp' sp1 sp1' : Span) (hp : p = .arity → σ.surplus = 0)
    (hargs : List.Forall₂ (σ.TracksIn B w env env') args args') :
    σ.TracksIn B w env env' (.app sp (.prim sp1 p) args) (.app sp' (.prim sp1' p) args') := by
  refine of_step (fun N M S F G hB hS hw hnext => meets_primCall sp sp' sp1 sp1' ?_)
  by_cases hlength : args.length = p.parameters
  · exact meets_applyPrim hp (hargs.imp fun _ _ he => he.mono hw) hlength (Nat.le_of_lt hB) hS hnext
  · have hlength' : args'.length ≠ p.parameters := hargs.length_eq ▸ hlength
    simp only [Eval.applyPrim_of_length_ne _ _ _ hlength,
      Eval.applyPrim_of_length_ne _ _ _ hlength']
    exact .of_first_fails (.throw _) (.throw _)

namespace Tracks

theorem primApp (sp sp' sp1 sp1' : Span) (hp : p = .arity → σ.surplus = 0)
    (hargs : List.Forall₂ (σ.Tracks B) args args') :
    σ.Tracks B (.app sp (.prim sp1 p) args) (.app sp' (.prim sp1' p) args') :=
  of_tracksIn (fun _ _ _ henv =>
    .primApp sp sp' sp1 sp1' hp (hargs.imp fun _ _ he => he.tracksIn henv))

theorem cond (sp sp' : Span) {t t' a a' : NamedExpr} (ht : σ.Tracks B t t') (ha : σ.Tracks B a a')
    (hb : σ.Tracks B b b') : σ.Tracks B (.cond sp t a b) (.cond sp' t' a' b') := by
  refine of_step (fun N M S env env' F G hB hS henv hnext => ?_)
  simp only [evalAs_cond, bind_assoc, Eval.branch_bind]
  refine ht N M S env env' _ _ (Nat.le_of_lt hB) hS henv (fun S' v v' hlater hS' hv => ?_)
  have henv' := henv.mono hlater.grows
  exact meets_branch hv (ha N M S' env env' _ _ (Nat.le_of_lt hB) hS' henv' (hnext.later hlater))
    (hb N M S' env env' _ _ (Nat.le_of_lt hB) hS' henv' (hnext.later hlater))

/-- Expressions in order. -/
theorem sequence (hes : List.Forall₂ (σ.Tracks B) es es') (hB : N + M ≤ B) (hS : σ.Related S)
    (henv : σ.Envs S.links env env') (hv : σ.Same S.links v v') (hnext : σ.Continues N M S F G) :
    S.Meets σ N M (fun n => Eval.sequence (watched σ.marker n) .eager env v es >>= F n)
      (fun m => Eval.sequence (watched none m) .eager env' v' es' >>= G m) := by
  induction hes generalizing S v v' with
  | nil => exact hnext.now hS hv
  | cons he _ ih =>
    simp only [Eval.sequence, bind_assoc]
    refine he N M S env env' _ _ hB hS henv (fun S' w w' hlater hS' hw => ?_)
    exact ih hS' (henv.mono hlater.grows) hw (hnext.later hlater)

theorem block (sp sp' : Span) (hes : List.Forall₂ (σ.Tracks B) es es') :
    σ.Tracks B (.block sp es) (.block sp' es') :=
  of_step (fun _ _ _ _ _ _ _ hB hS henv hnext =>
    sequence hes (Nat.le_of_lt hB) hS henv .unit hnext)

/-- Definitions of the same names. -/
theorem letIn (sp sp' : Span) (kind : LetKind) (hnames : Expr.defNames defs = Expr.defNames defs')
    (hdefs : List.Forall₂ (σ.Tracks B) (Expr.defValues defs) (Expr.defValues defs'))
    (hb : σ.Tracks B b b') :
    σ.Tracks B (.letIn sp kind defs () b) (.letIn sp' kind defs' () b') := by
  refine of_step (fun N M S env env' F G hB hS henv hnext => ?_)
  simp only [evalAs_letIn, bind_assoc]
  exact meets_define hnames hdefs (Nat.le_of_lt hB) hS henv (fun S' hlater hS' henv' =>
    hb N M S' _ _ _ _ (Nat.le_of_lt hB) hS' henv' (hnext.later hlater))

end Tracks

end Scheme

end Mapling
