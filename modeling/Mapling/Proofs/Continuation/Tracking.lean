import Mapling.Proofs.Continuation.MirroredStores

/-! # Expressions that track each other

An expression tracks another if, from related stores, what comes after the one and what comes
after the other meet as soon as they meet for all values that are the same (`Scheme.Tracks`). The
operators and forms of the language preserve this. Whatever one side does before it comes to the
next part of the expression the other does as well, so the proofs go through the evaluator step by
step. Calls are left to the schemes: they are the steps that lower the bound `B` on how far the
two runs are followed. -/

namespace Mapling

variable {i j : Nat} {p : Prim} {ps' : List Ident} {b' : NamedExpr}

/-- What comes after a value is known. -/
abbrev Rest := Nat → NamedValue → Eval Ident Unit NamedValue

/-- The evaluator of free runs that are watched for what they compare. -/
abbrev watched (marker : Option EvalError) (n : Nat) :
    Evaluator Ident Unit :=
  Machine.evalFreely (Eval.marking marker) n

abbrev evalAs (marker : Option EvalError) (n : Nat) (env : Env)
    (e : NamedExpr) : Eval Ident Unit NamedValue :=
  watched marker n .eager env e

variable {V L α : Type}

theorem Fails.mismatch (op : String) (v : Value V L) (s : Store V L) :
    Fails (fun n => (Eval.mismatch n op v : Eval V L α)) s :=
  of_below (EvalError.typeMismatch op) (fun _ _ hn => Below.shown hn v)

theorem Fails.notAList (op : String) (v : Value V L) (s : Store V L) :
    Fails (fun n => (do MonadExcept.throw (EvalError.notAList op (← Eval.shown n v)) :
      Eval V L α)) s :=
  of_below (EvalError.notAList op) (fun _ _ hn => Below.shown hn v)

/-- Reading a slot that is not initialised. -/
theorem Fails.force (ev : Nat → Evaluator V L) (label : String) {s : Store V L}
    (h : s.slot i = .uninit) : Fails (fun n => Eval.force (ev n) label i) s := by
  have hthrow : ∀ n, outcome (Eval.force (ev n) label i) s =
      some (.error (.forwardReference label), s) := by
    intro n
    rw [Eval.force, outcome_bind_of_ok _ (outcome_get s), h]
    rfl
  refine ⟨fun n => ?_, fun n n' o _ ho => ?_⟩
  · rintro ⟨a, s', hok⟩
    cases (hthrow n).symm.trans hok
  · rw [hthrow] at ho ⊢
    exact ho

def Eval.operateAs (marker : Option EvalError) (n : Nat)
    (op : BinaryOp) (v w : NamedValue) : Eval Ident Unit NamedValue :=
  match op with
  | .eq => do
    return .bool (← marking marker n (watched marker n) v w)
  | .ne => do
    return .bool (!(← marking marker n (watched marker n) v w))
  | op => arithmetic n op v w

/-- An operator that needs both operands evaluates them in order. -/
theorem evalAs_binary (marker : Option EvalError) (n : Nat) (env : Env) (sp : Span)
    {op : BinaryOp} (hand : op ≠ .and) (hor : op ≠ .or) (hassign : op ≠ .assign) (l r : NamedExpr) :
    evalAs marker (n + 1) env (.binary sp op l r) =
      evalAs marker n env l >>= fun v =>
        evalAs marker n env r >>= Eval.operateAs marker n op v := by
  cases op with
  | and => exact absurd rfl hand
  | or => exact absurd rfl hor
  | assign => exact absurd rfl hassign
  | _ => rfl

namespace Scheme

variable (σ : Scheme)

/-- Two runs are to end in values that are the same, in related stores. -/
def goal : Goal EvalError NamedStore NamedStore NamedValue NamedValue where
  fits v s v' t := ∃ w, σ.Related ⟨w, s, t⟩ ∧ σ.Same w v v'
  excused e := σ.marker = some e

end Scheme

abbrev Stage.Meets (S : Stage) (σ : Scheme) (N M : Nat)
    (x y : Nat → Eval Ident Unit NamedValue) : Prop :=
  Mapling.Meets σ.goal N M x S.left y S.right

namespace Scheme

variable (σ : Scheme)

/-- What comes after values that are the same meets, now and later. -/
def Continues (N M : Nat) (S : Stage) (F G : Rest) : Prop :=
  ∀ S' v v', S.Later S' → σ.Related S' → σ.Same S'.links v v' →
    Meets σ.goal N M (fun n => F n v) S'.left (fun m => G m v') S'.right

/-- From related stores two expressions come to values that are the same, as far as `B` levels of
recursion show. -/
def Tracks (B : Nat) (e e' : NamedExpr) : Prop :=
  ∀ N M S env env' F G, N + M ≤ B → σ.Related S → σ.Envs S.links env env' →
    σ.Continues N M S F G →
    Meets σ.goal N M (fun n => evalAs σ.marker n env e >>= F n) S.left
      (fun m => evalAs none m env' e' >>= G m) S.right

/-- The same in two environments, from all stages that have the links `w`. -/
def TracksIn (B : Nat) (w : List Link) (env env' : Env) (e e' : NamedExpr) : Prop :=
  ∀ N M S F G, N + M ≤ B → σ.Related S → w ⊆ S.links → σ.Continues N M S F G →
    Meets σ.goal N M (fun n => evalAs σ.marker n env e >>= F n) S.left
      (fun m => evalAs none m env' e' >>= G m) S.right

variable {σ} {N M B : Nat} {S : Stage} {F G : Rest}
variable {v' v w' w : NamedValue} {evL evR : Nat → Evaluator Ident Unit} {e' e : NamedExpr}
  {env' env : Env}

theorem Tracks.tracksIn (h : σ.Tracks B e e') {w : List Link} (henv : σ.Envs w env env') :
    σ.TracksIn B w env env' e e' :=
  fun N M S F G hB hS hw hnext => h N M S env env' F G hB hS (henv.mono hw) hnext

theorem Tracks.of_tracksIn (h : ∀ w env env', σ.Envs w env env' → σ.TracksIn B w env env' e e') :
    σ.Tracks B e e' :=
  fun N M S env env' F G hB hS henv hnext =>
    h _ env env' henv N M S F G hB hS (fun _ hl => hl) hnext

theorem TracksIn.mono {w w' : List Link} (h : σ.TracksIn B w env env' e e') (hw : w ⊆ w') :
    σ.TracksIn B w' env env' e e' :=
  fun N M S F G hB hS hw' hnext => h N M S F G hB hS (fun _ hl => hw' (hw hl)) hnext

namespace Continues

theorem later {S' : Stage} (h : σ.Continues N M S F G) (hlater : S.Later S') :
    σ.Continues N M S' F G :=
  fun S'' v v' hlater' hS'' hv => h S'' v v' (hlater.trans hlater') hS'' hv

/-- At once. -/
theorem now (h : σ.Continues N M S F G) (hS : σ.Related S) (hv : σ.Same S.links v v') :
    S.Meets σ N M (fun n => F n v) (fun m => G m v') :=
  h S v v' (.refl S) hS hv

theorem spare (h : σ.Continues N M S F G) :
    σ.Continues (N - 1) (M - 1) S (fun n => F (n + 1)) (fun m => G (m + 1)) :=
  fun S' v v' hlater hS' hv => (h S' v v' hlater hS' hv).spareLeft.spareRight

end Continues

/-- It is enough to look at one level of the recursion, which leaves less to follow. -/
theorem TracksIn.of_step {w : List Link}
    (h : ∀ N M S F G, N + M < B → σ.Related S → w ⊆ S.links → σ.Continues N M S F G →
      S.Meets σ N M (fun n => evalAs σ.marker (n + 1) env e >>= F n)
        (fun m => evalAs none (m + 1) env' e' >>= G m)) :
    σ.TracksIn B w env env' e e' := by
  intro N M S F G hB hS hw hnext
  by_cases hzero : N + M = 0
  · rintro (⟨n, hn, -⟩ | ⟨m, hm, -⟩) <;> omega
  · exact .left rfl (.right rfl (h (N - 1) (M - 1) S _ _ (by omega) hS hw hnext.spare))

theorem Tracks.of_step
    (h : ∀ N M S env env' F G, N + M < B → σ.Related S → σ.Envs S.links env env' →
      σ.Continues N M S F G →
      S.Meets σ N M (fun n => evalAs σ.marker (n + 1) env e >>= F n)
        (fun m => evalAs none (m + 1) env' e' >>= G m)) : σ.Tracks B e e' :=
  of_tracksIn (fun _ env env' henv => .of_step (fun N M S F G hB hS hw hnext =>
    h N M S env env' F G hB hS (henv.mono hw) hnext))

/-! ## Operators -/

/-- Unary operators on values that correspond come to the same. -/
theorem meets_unary (hS : σ.Related S) (hnext : σ.Continues N M S F G) (op : UnaryOp)
    (hv : σ.Same S.links v v') :
    S.Meets σ N M (fun n => Eval.unary n op v >>= F n) (fun m => Eval.unary m op v' >>= G m) := by
  cases op with
  | neg =>
    cases hv with
    | int k =>
      cases hk : negate k with
      | ok r =>
        have hnow : S.Meets σ N M (fun n => F n (.int r))
            (fun m => G m (.int r)) := hnext.now hS (.int r)
        refine .congr_left (fun n => ?_) (.congr_right (fun m => ?_) hnow)
        · simp only [Eval.unary, hk]
          rfl
        · simp only [Eval.unary, hk]
          rfl
      | error e =>
        simp only [Eval.unary, hk]
        exact .of_first_fails (.throw e) (.throw e)
    | _ => exact .of_first_fails (.mismatch _ _ _) (.mismatch _ _ _)
  | not =>
    cases hv with
    | bool b => exact hnext.now hS (.bool (!b))
    | _ => exact .of_first_fails (.mismatch _ _ _) (.mismatch _ _ _)
  | deref =>
    cases hv with
    | ref hcell => exact hnext.now hS (hS.cell hcell).2.2
    | _ => exact .of_first_fails (.mismatch _ _ _) (.mismatch _ _ _)
  | ref =>
    have hS' := Stage.related_newRef hS hv
    exact hnext _ _ _ (S.later_newRef v v') hS' (.ref List.mem_cons_self)

/-- Arithmetic on values that correspond comes to the same. -/
theorem meets_arithmetic (hS : σ.Related S) (hnext : σ.Continues N M S F G) (op : BinaryOp)
    (hv : σ.Same S.links v v') (hw : σ.Same S.links w w') :
    S.Meets σ N M (fun n => Eval.arithmetic n op v w >>= F n)
      (fun m => Eval.arithmetic m op v' w' >>= G m) := by
  cases hv with
  | int a =>
    cases hw with
    | int b =>
      cases hr : op.onInts a b with
      | ok r =>
        cases r with
        | int k =>
          simp only [Eval.arithmetic, hr]
          exact hnext.now hS (.int k)
        | bool c =>
          simp only [Eval.arithmetic, hr]
          exact hnext.now hS (.bool c)
      | error e =>
        simp only [Eval.arithmetic, hr]
        exact .of_first_fails (.throw e) (.throw e)
    | _ => exact .of_first_fails (.mismatch _ _ _) (.mismatch _ _ _)
  | _ => exact .of_first_fails (.mismatch _ _ _) (.mismatch _ _ _)

/-- Reading linked slots. -/
theorem meets_force (hS : σ.Related S) (label label' : String) (hl : .slot i j ∈ S.links)
    (hnext : ∀ v v', S.left.slot i = .ready v → S.right.slot j = .ready v' →
      σ.Same S.links v v' → S.Meets σ N M (fun n => F n v) (fun m => G m v')) :
    S.Meets σ N M (fun n => Eval.force (evL n) label i >>= F n)
      (fun m => Eval.force (evR m) label' j >>= G m) := by
  obtain ⟨-, -, hsame⟩ := hS.slot hl
  generalize hi : S.left.slot i = x, hj : S.right.slot j = x' at hsame
  cases hsame with
  | uninit => exact .of_first_fails (.force _ _ hi) (.force _ _ hj)
  | @ready v v' hv =>
    exact .congr_left (fun n => outcome_bind_of_ok _ (Eval.outcome_force hi _))
      (.congr_right (fun m => outcome_bind_of_ok _ (Eval.outcome_force hj _)) (hnext v v' hi hj hv))

/-- The second part of a pair has to be a list, on both sides or on neither. -/
theorem meets_forceTail (hS : σ.Related S) (hl : .slot i j ∈ S.links)
    (hnext : ∀ v v', S.left.slot i = .ready v → σ.Same S.links v v' →
      S.Meets σ N M (fun n => F n v) (fun m => G m v')) :
    S.Meets σ N M (fun n => Eval.forceTail n (evL n) i >>= F n)
      (fun m => Eval.forceTail m (evR m) j >>= G m) := by
  simp only [Eval.forceTail, bind_assoc]
  refine meets_force hS _ _ hl (fun v v' hi _ hv => ?_)
  rw [hv.isList_eq]
  by_cases hlist : v'.isList = true
  · simp only [hlist, if_true, pure_bind]
    exact hnext v v' hi hv
  · simp only [hlist]
    exact .of_first_fails (.notAList _ _ _) (.notAList _ _ _)

/-- Values that are not pairs are equal on both sides or on neither, unless they are primitives. -/
theorem sameAtom_eq (hone : OneToOne S.links) (hv : σ.Same S.links v v')
    (hw : σ.Same S.links w w') (hprims : ∀ p q, ¬ (v = .prim p ∧ w = .prim q)) :
    Eval.sameAtom v w = Eval.sameAtom v' w' := by
  cases hv with
  | closure id _ _ =>
    cases hw with
    | closure id' _ _ =>
      simp only [Eval.sameAtom, beq_eq_beq]
      exact hone.closure id id'
    | prim id' _ =>
      have hne := hone.prim id id'
      simp [Eval.sameAtom, hne]
    | _ => rfl
  | prim id _ =>
    cases hw with
    | closure id' _ _ =>
      have hne := (hone.prim id' id).symm
      simp [Eval.sameAtom, hne]
    | prim id' _ => exact absurd ⟨rfl, rfl⟩ (hprims _ _)
    | _ => rfl
  | ref cell =>
    cases hw with
    | ref cell' =>
      simp only [Eval.sameAtom, beq_eq_beq]
      exact hone.cell cell cell'
    | _ => rfl
  | _ => cases hw <;> rfl

/-- Values that are the same look alike, except for functions. -/
theorem Same.alike (hS : σ.Related S) (h : σ.Same S.links v v') (hv : v.isFunction = false) :
    Alike (σ.Same S.links) S.left S.right v v' := by
  have hpart : ∀ {i j}, .slot i j ∈ S.links →
      Option.Rel (σ.Same S.links) (S.left.slot i).value? (S.right.slot j).value? := by
    intro i j hl
    obtain ⟨-, -, hslot⟩ := hS.holds _ hl
    generalize S.left.slot i = x at hslot
    generalize S.right.slot j = y at hslot
    cases hslot with
    | uninit => exact .none
    | ready same => exact .some same
  cases h with
  | int n => exact .int n
  | bool b => exact .bool b
  | null => exact .null
  | unit => exact .unit
  | pair head tail => exact .pair (hpart head) (hpart tail)
  | ref cell => exact .ref (hS.holds _ cell).2.2
  | closure | prim => cases hv

/-- Equality comes to the same, unless two primitives meet and an error is raised for it. -/
theorem meets_marking {F G : Nat → Bool → Eval Ident Unit NamedValue} (hS : σ.Related S)
    (hv : σ.Same S.links v v') (hw : σ.Same S.links w w')
    (hnext : ∀ r, S.Meets σ N M (fun n => F n r) (fun m => G m r)) :
    S.Meets σ N M (fun n => Eval.marking σ.marker n (evL n) v w >>= F n)
      (fun m => Eval.marking none m (evR m) v' w' >>= G m) := by
  induction hK : N + M using Nat.strong_induction_on generalizing N M v v' w w' F G evL evR with
  | _ K ih =>
  by_cases hzero : N + M = 0
  · rintro (⟨n, hn, -⟩ | ⟨m, hm, -⟩) <;> omega
  refine .left rfl (.right rfl ?_)
  have hnext' : ∀ r, S.Meets σ (N - 1) (M - 1) (fun n => F (n + 1) r)
      (fun m => G (m + 1) r) := fun r => (hnext r).spareLeft.spareRight
  have hatom : (∀ p q, ¬ (v = .prim p ∧ w = .prim q)) →
      S.Meets σ (N - 1) (M - 1) (fun n => F (n + 1) (Eval.sameAtom v w))
        (fun m => G (m + 1) (Eval.sameAtom v' w')) := by
    intro hprims
    rw [sameAtom_eq hS.oneToOne hv hw hprims]
    exact hnext' _
  -- two pairs are followed into their parts, two primitives raise the error, all else is at hand
  cases hv with
  | @pair h t h' t' head tail =>
    cases hw with
    | @pair i k i' k' head' tail' =>
      have hhead := hS.oneToOne.slot head head'
      have htail := hS.oneToOne.slot tail tail'
      by_cases hsame : h = i ∧ t = k
      · have hsame' : h' = i' ∧ t' = k' := ⟨hhead.mp hsame.1, htail.mp hsame.2⟩
        simp only [Eval.marking, Eval.equalsBy, hsame, hsame', and_self, if_true, pure_bind]
        exact hnext' true
      · have hsame' : ¬ (h' = i' ∧ t' = k') :=
          fun heq => hsame ⟨hhead.mpr heq.1, htail.mpr heq.2⟩
        simp only [Eval.marking, Eval.equalsBy, hsame, hsame', if_false, bind_assoc]
        refine meets_force hS _ _ head (fun a a' hready _ ha => ?_)
        refine meets_force hS _ _ head' (fun b b' _ _ hb => ?_)
        refine ih _ (by omega) ha hb (fun r => ?_) rfl
        cases r with
        | false => exact hnext' false
        | true =>
          simp only [if_true, bind_assoc]
          refine meets_forceTail hS tail (fun a a' hready ha => ?_)
          refine meets_forceTail hS tail' (fun b b' _ hb => ?_)
          exact ih _ (by omega) ha hb hnext' rfl
    | _ => exact hatom (by simp)
  | prim id code =>
    cases hw with
    | prim id' code' =>
      obtain ⟨e, he⟩ := Option.isSome_iff_exists.mp (σ.marked code)
      refine .of_excused e S.left (fun n => ?_) he
      rw [he]
      rfl
    | _ => exact hatom (by simp)
  | _ => cases hw <;> exact hatom (by simp)

theorem meets_operateAs (hS : σ.Related S) (hnext : σ.Continues N M S F G) (op : BinaryOp)
    (hv : σ.Same S.links v v') (hw : σ.Same S.links w w') :
    S.Meets σ N M (fun n => Eval.operateAs σ.marker n op v w >>= F n)
      (fun m => Eval.operateAs none m op v' w' >>= G m) := by
  cases op with
  | eq =>
    simp only [Eval.operateAs, bind_assoc, pure_bind]
    exact meets_marking hS hv hw (fun b => hnext.now hS (.bool b))
  | ne =>
    simp only [Eval.operateAs, bind_assoc, pure_bind]
    exact meets_marking hS hv hw (fun b => hnext.now hS (.bool !b))
  | _ => exact meets_arithmetic hS hnext _ hv hw

/-! ## Primitives -/

variable (σ)

def Arity (a : Nat) : Prop :=
  (∃ ps b ps' b', σ.code ps b ps' b' ∧ a = ps.length) ∨
    ∃ p ps' b', σ.prim p ps' b' ∧ a = p.parameters

variable {σ}

theorem meets_arity (hv : σ.Same S.links v v')
    (hnext : ∀ a : Nat, σ.Arity a → S.Meets σ N M (fun n => F n (.int a))
      (fun m => G m (.int (a + σ.surplus : Nat)))) :
    S.Meets σ N M (fun n => Eval.primitive n (evL n) .arity v >>= F n)
      (fun m => Eval.primitive m (evR m) .arity v' >>= G m) := by
  cases hv with
  | @closure i i' ps ps' b b' env env' id code envs =>
    have hnext' := hnext ps.length (.inl ⟨ps, b, ps', b', code, rfl⟩)
    rw [← σ.code_arity code] at hnext'
    exact hnext'
  | @prim i' p ps' b' env' id code =>
    have hnext' := hnext p.parameters (.inr ⟨p, ps', b', code, rfl⟩)
    rw [← σ.prim_arity code] at hnext'
    exact hnext'
  | _ => exact .of_first_fails (.mismatch _ _ _) (.mismatch _ _ _)

/-- The primitives of one argument but `arity`. -/
theorem meets_primitive (hS : σ.Related S) (hnext : σ.Continues N M S F G) (hp : p ≠ .arity)
    (hv : σ.Same S.links v v') :
    S.Meets σ N M (fun n => Eval.primitive n (evL n) p v >>= F n)
      (fun m => Eval.primitive m (evR m) p v' >>= G m) := by
  cases p with
  | arity => exact absurd rfl hp
  | cons => exact .of_first_fails (.mismatch _ _ _) (.mismatch _ _ _)
  | first =>
    cases hv with
    | pair head tail => exact meets_force hS _ _ head (fun v v' _ _ hv => hnext.now hS hv)
    | null => exact .of_first_fails (.throw _) (.throw _)
    | _ => exact .of_first_fails (.notAList _ _ _) (.notAList _ _ _)
  | rest =>
    cases hv with
    | pair head tail => exact meets_forceTail hS tail (fun v v' _ hv => hnext.now hS hv)
    | null => exact .of_first_fails (.throw _) (.throw _)
    | _ => exact .of_first_fails (.notAList _ _ _) (.notAList _ _ _)
  | _ => cases hv <;> exact hnext.now hS (.bool _)

/-- A pair is made of values that are the same, if the second one is a list. -/
theorem meets_pair (hS : σ.Related S) (hnext : σ.Continues N M S F G) (hv : σ.Same S.links v v')
    (hw : σ.Same S.links w w') :
    S.Meets σ N M
      (fun n => (if w.isList then modifyGet (fun s => s.newPair (.ready v) (.ready w))
        else (do throw (.notAList Prim.cons.name (← Eval.shown n w)))) >>= F n)
      (fun m => (if w'.isList then modifyGet (fun s => s.newPair (.ready v') (.ready w'))
        else (do throw (.notAList Prim.cons.name (← Eval.shown m w')))) >>= G m) := by
  rw [hw.isList_eq]
  by_cases hlist : w'.isList = true
  · simp only [hlist, if_true]
    exact hnext _ _ _ (S.later_newPair v w v' w') (Stage.related_newPair hS hv hw)
      (S.same_newPair v w v' w')
  · simp only [hlist]
    exact .of_first_fails (.notAList _ _ _) (.notAList _ _ _)

/-- A primitive that is called by its name. -/
theorem meets_primCall {args args' : List NamedExpr} (sp sp' sp1 sp1' : Span)
    (h : S.Meets σ N M
      (fun n => Eval.applyPrim n (watched σ.marker n) .eager env p args >>= F n)
      (fun m => Eval.applyPrim m (watched none m) .eager env' p args' >>= G m)) :
    S.Meets σ N M
      (fun n => evalAs σ.marker (n + 1) env (.app sp (.prim sp1 p) args) >>= F n)
      (fun m => evalAs none (m + 1) env' (.app sp' (.prim sp1' p) args') >>= G m) :=
  .of_succ rfl rfl (fun _ => rfl) (fun _ => rfl) h

/-! ## Expressions without parts -/

namespace Tracks

theorem int (sp sp' : Span) (k : Int) : σ.Tracks B (.int sp k) (.int sp' k) :=
  of_step (fun _ _ _ _ _ _ _ _ hS _ hnext => hnext.now hS (.int k))

theorem bool (sp sp' : Span) (b : Bool) : σ.Tracks B (.bool sp b) (.bool sp' b) :=
  of_step (fun _ _ _ _ _ _ _ _ hS _ hnext => hnext.now hS (.bool b))

theorem null (sp sp' : Span) : σ.Tracks B (.null sp) (.null sp') :=
  of_step (fun _ _ _ _ _ _ _ _ hS _ hnext => hnext.now hS .null)

/-- A variable tracks itself. -/
theorem var (sp sp' : Span) {x : Ident} (hx : σ.names x.name) :
    σ.Tracks B (.var sp x) (.var sp' x) := by
  refine of_step (fun N M S env env' F G _ hS henv hnext => ?_)
  have hvar : ∀ marker n env sp, evalAs marker (n + 1) env (.var sp x) =
      Eval.step n (watched marker n) .eager env (.var sp x) := fun _ _ _ _ => rfl
  have hunbound : ∀ marker n env sp, env.find? x.name = none →
      evalAs marker (n + 1) env (.var sp x) = throw (.unboundVariable x.name) := by
    intro marker n env sp hnone
    simp only [hvar, Eval.stepBy, Variable.lookup, Variable.text, hnone]
  have hbound : ∀ marker n env sp b, env.find? x.name = some b →
      evalAs marker (n + 1) env (.var sp x) =
        Eval.force (watched marker n) b.name b.slot := by
    intro marker n env sp b hb
    simp only [hvar, Eval.stepBy, Variable.lookup, hb]
  rcases henv x.name hx with ⟨hnone, hnone'⟩ | ⟨b, b', hb, hb', hl⟩
  · simp only [hunbound _ _ _ _ hnone, hunbound _ _ _ _ hnone']
    exact .of_first_fails (.throw _) (.throw _)
  · simp only [hbound _ _ _ _ _ hb, hbound _ _ _ _ _ hb']
    exact meets_force hS _ _ hl (fun v v' _ _ hv => hnext.now hS hv)

theorem map (sp sp' : Span) {ps : List Ident} {b : NamedExpr} (hcode : σ.code ps b ps' b') :
    σ.Tracks B (.map sp ps () b) (.map sp' ps' () b') := by
  refine of_step (fun N M S env env' F G _ hS henv hnext => ?_)
  refine hnext (S.newClosure ⟨ps, (), b, env⟩ ⟨ps', (), b', env'⟩) _ _ (S.later_newClosure _ _)
    (Stage.related_newClosure hS _ _) (.closure List.mem_cons_self hcode ?_)
  exact henv.mono (List.subset_cons_self _ _)

/-- A primitive that is a function on the right. -/
theorem prim (sp sp' : Span) (hcode : σ.prim p ps' b') :
    σ.Tracks B (.prim sp p) (.map sp' ps' () b') := by
  refine of_step (fun N M S env env' F G _ hS henv hnext => ?_)
  exact hnext (S.newPrim ⟨ps', (), b', env'⟩) _ _ (S.later_newPrim _)
    (Stage.related_newPrim hS _) (.prim List.mem_cons_self hcode)

/-! ## Forms without frames -/

theorem unary (sp sp' : Span) (op : UnaryOp) (he : σ.Tracks B e e') :
    σ.Tracks B (.unary sp op e) (.unary sp' op e') := by
  refine of_step (fun N M S env env' F G hB hS henv hnext => ?_)
  have hunary : ∀ marker n env sp e (f : NamedValue → Eval Ident Unit NamedValue),
      evalAs marker (n + 1) env (.unary sp op e) >>= f =
        evalAs marker n env e >>= fun v => Eval.unary n op v >>= f :=
    fun _ _ _ _ _ _ => bind_assoc _ _ _
  simp only [hunary]
  exact he N M S env env' _ _ (Nat.le_of_lt hB) hS henv
    (fun S' v v' hlater hS' hv => meets_unary hS' (hnext.later hlater) op hv)

variable {l' r' l r : NamedExpr}

/-- Two operands, one after the other. -/
theorem operands (hl : σ.TracksIn B S.links env env' l l')
    (hr : σ.TracksIn B S.links env env' r r') (hB : N + M ≤ B) (hS : σ.Related S)
    {F G : Nat → NamedValue → NamedValue → Eval Ident Unit NamedValue}
    (hnext : ∀ S' v v' w w', S.Later S' → σ.Related S' → σ.Same S'.links v v' →
      σ.Same S'.links w w' →
      S'.Meets σ N M (fun n => F n v w) (fun m => G m v' w')) :
    S.Meets σ N M
      (fun n => evalAs σ.marker n env l >>=
        fun v => evalAs σ.marker n env r >>= F n v)
      (fun m => evalAs none m env' l' >>=
        fun v => evalAs none m env' r' >>= G m v) := by
  refine hl N M S _ _ hB hS (fun _ hl => hl) (fun S1 v v' hlater1 hS1 hv => ?_)
  refine hr N M S1 _ _ hB hS1 hlater1.grows (fun S2 w w' hlater2 hS2 hw => ?_)
  exact hnext S2 v v' w w' (hlater1.trans hlater2) hS2 (hv.mono hlater2.grows) hw

theorem logical (hl : σ.Tracks B l l') (hr : σ.Tracks B r r') (hB : N + M ≤ B) (hS : σ.Related S)
    (henv : σ.Envs S.links env env') (op : BinaryOp) (decisive : Bool)
    (hnext : σ.Continues N M S F G) :
    S.Meets σ N M
      (fun n => Eval.logical n (watched σ.marker n) .eager env op decisive l r >>= F n)
      (fun m => Eval.logical m (watched none m) .eager env' op decisive l' r' >>=
        G m) := by
  simp only [Eval.logical, bind_assoc]
  refine hl N M S env env' _ _ hB hS henv (fun S1 v v' hlater1 hS1 hv => ?_)
  cases hv with
  | bool b =>
    by_cases hb : b = decisive
    · simp only [hb, if_true, pure_bind]
      exact hnext.later hlater1 |>.now hS1 (.bool decisive)
    · simp only [hb, if_false, bind_assoc]
      refine hr N M S1 env env' _ _ hB hS1 (henv.mono hlater1.grows)
        (fun S2 w w' hlater2 hS2 hw => ?_)
      cases hw with
      | bool c => exact hnext.later (hlater1.trans hlater2) |>.now hS2 (.bool c)
      | _ => exact .of_first_fails (.mismatch _ _ _) (.mismatch _ _ _)
  | _ => exact .of_first_fails (.mismatch _ _ _) (.mismatch _ _ _)

theorem assign (hl : σ.Tracks B l l') (hr : σ.Tracks B r r') (hB : N + M ≤ B) (hS : σ.Related S)
    (henv : σ.Envs S.links env env') (hnext : σ.Continues N M S F G) :
    S.Meets σ N M (fun n => Eval.assign n (watched σ.marker n) .eager env l r >>= F n)
      (fun m => Eval.assign m (watched none m) .eager env' l' r' >>= G m) := by
  simp only [Eval.assign, bind_assoc]
  refine hl N M S env env' _ _ hB hS henv (fun S1 v v' hlater1 hS1 hv => ?_)
  cases hv with
  | ref cell =>
    simp only [bind_assoc, pure_bind]
    refine hr N M S1 env env' _ _ hB hS1 (henv.mono hlater1.grows)
      (fun S2 w w' hlater2 hS2 hw => ?_)
    have hcell := hlater2.grows cell
    exact hnext _ _ _ ((hlater1.trans hlater2).trans (S2.later_setCell _ _ w w'))
      (Stage.related_setCell hS2 hcell hw) .unit
  | _ => exact .of_first_fails (.mismatch _ _ _) (.mismatch _ _ _)

theorem binary (sp sp' : Span) (op : BinaryOp) (hl : σ.Tracks B l l') (hr : σ.Tracks B r r') :
    σ.Tracks B (.binary sp op l r) (.binary sp' op l' r') := by
  refine of_step (fun N M S env env' F G hB hS henv hnext => ?_)
  by_cases hand : op = .and
  · subst hand
    exact logical hl hr (Nat.le_of_lt hB) hS henv .and false hnext
  by_cases hor : op = .or
  · subst hor
    exact logical hl hr (Nat.le_of_lt hB) hS henv .or true hnext
  by_cases hassign : op = .assign
  · subst hassign
    exact assign hl hr (Nat.le_of_lt hB) hS henv hnext
  simp only [evalAs_binary _ _ _ _ hand hor hassign, bind_assoc]
  refine operands (hl.tracksIn henv) (hr.tracksIn henv) (Nat.le_of_lt hB) hS
    (fun S' v v' w w' hlater hS' hv hw => ?_)
  exact meets_operateAs hS' (hnext.later hlater) op hv hw

end Tracks

end Scheme

end Mapling
