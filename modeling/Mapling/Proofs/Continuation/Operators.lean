import Mapling.Proofs.Continuation.Calling

/-! # Operators with a continuation

An operator, or a primitive that is called by its name, is applied in place once its operands have
values; the continuation is called with the result. On the left its operands are evaluated in
order and something is made of their values (`Eval.gather`). On the right the same is made of what
stands for the operands (`Computes`).

Assignment looks at its left operand before it evaluates the right one, so it fails earlier than the
converted form does. -/

namespace Mapling

variable {es rs : List NamedExpr} {os : List (Option NamedValue)}
  {x : Nat → Eval Ident Unit NamedValue} {r e : NamedExpr} {S T : Stage} {env : Env}
  {vs : List NamedValue} {lo hi : Nat} {F G : Rest}

noncomputable def Eval.gather (n : Nat) (env : Env) :
    List NamedExpr → (List NamedValue → Eval Ident Unit NamedValue) → Eval Ident Unit NamedValue
  | [], f => f []
  | e :: es, f =>
    evalAs none n env e >>= fun v => gather n env es (fun vs => f (v :: vs))

theorem Eval.gather_bind (n : Nat) (env : Env) (es : List NamedExpr)
    (f : List NamedValue → Eval Ident Unit NamedValue)
    (g : NamedValue → Eval Ident Unit NamedValue) :
    gather n env es f >>= g = gather n env es (fun vs => f vs >>= g) := by
  induction es generalizing f with
  | nil => rfl
  | cons e es ih => simp only [gather, bind_assoc, ih]

namespace Conversion

open Mapling.Expr

/-! ## Values in order -/

section

variable {n n1 n2 lo0 lo hi N M B : Nat} {T S S0 : Stage} {env env' : Env} {k body c : NamedExpr}

/-- Stand-ins that are evaluated in order give the values of their operands. -/
theorem meets_gatherStandIns {G : Nat → List NamedValue → Eval Ident Unit NamedValue}
    (hst : StandsAll n T env lo hi es os) (hr : ReshapesAll es n1 rs n2) (hlo : lo0 ≤ lo)
    (hT : Stage.Within lo0 lo T S) (hS : passing.Related S)
    (hnext : ∀ S' vs vs', os = vs.map some → Stage.Within lo0 hi T S' → S.links ⊆ S'.links →
      passing.Related S' → List.Forall₂ (passing.Same S'.links) vs vs' →
      S'.Meets passing N M x (fun m => G m vs'))
    (hdead : none ∈ os → Fails x T.left) :
    S.Meets passing N M x (fun m => Eval.gather m env rs (G m)) := by
  induction hst generalizing S n1 rs G with
  | @nil lo hi hle =>
    cases hr
    exact hnext S [] [] rfl (hT.widen hle) (fun _ hl => hl) hS .nil
  | @cons lo mid hi e es o os hmid hst _ ih =>
    cases hr with
    | cons hr hrs =>
      refine meets_standIn hst hmid hr hlo hT hS (fun S1 v v' ho hT1 _ hgrows hS1 hv => ?_)
        (fun ho => ?_)
      · refine ih hrs (by omega) hT1 hS1 (fun S' vs vs' hos hT' hgrows' hS' hvs => ?_)
          (fun hnone => hdead (List.mem_cons_of_mem _ hnone))
        exact hnext S' (v :: vs) (v' :: vs') (by rw [ho, hos, List.map_cons]) hT'
          (fun l hl => hgrows' (hgrows hl)) hS' (.cons (hv.mono hgrows') hvs)
      · rw [hT.left]
        exact hdead (by rw [ho]; exact List.mem_cons_self)

/-- Operands that are evaluated in order. -/
theorem meets_operands {F : Nat → List NamedValue → Eval Ident Unit NamedValue}
    (h : Pending B k body S0 S env env' n es n1 c) (hB : N + M ≤ B)
    (hnext : ∀ {S' env1 vs n' c},
      Evaluated k body S0 S env' n es S' env1 (vs.map some) n' c →
      S'.Meets passing N M (fun n => F n vs) (fun m => evalAs none m env1 c))
    (hdead : Dead M k body S0 S env' n es (none ∈ ·)) :
    S.Meets passing N M (fun n => Eval.gather n env (expandAll es) (F n))
      (fun m => evalAs none m env' c) := by
  induction es generalizing n n1 c S env' F with
  | nil => exact @hnext S env' [] n1 c h.evaluated
  | cons e es ih =>
    refine meets_firstOperand h hB hdead (fun {S1 env1 v n1 c} h1 hrest => ?_)
    exact ih hrest (fun {S' env2 vs n' c} h => @hnext S' env2 (v :: vs) n' c (h1.cons h))
      (fun h hnone => hdead (h1.cons h) (List.mem_cons_of_mem _ hnone))

end

/-! ## What is made of values -/

abbrev Operation := Nat → List NamedValue → Eval Ident Unit NamedValue

/-- Evaluating `r` makes of what stands for the operands what `act` makes of their values. -/
structure Computes (act : Operation) (es : List NamedExpr) (r : NamedExpr) :
    Prop where
  live : ∀ {N M n : Nat} {S T : Stage} {env : Env} {lo hi : Nat} {vs : List NamedValue}
    {F G : Rest}, S.Later T → S.left.closures ≤ lo → passing.Related T →
    StandsAll n T env lo hi es (vs.map some) → Awaits N M S T F G →
    Meets passing.goal N M (fun n => act n vs >>= F n) T.left
      (fun m => evalAs none m env r >>= G m) T.right
  dead : ∀ {n : Nat} {T : Stage} {env : Env} {lo hi : Nat} {os : List (Option NamedValue)},
    passing.Related T → StandsAll n T env lo hi es os → none ∈ os →
    ∀ (m : Nat) (f : NamedValue → Eval Ident Unit NamedValue),
      ¬ Succeeds (evalAs none m env r >>= f) T.right

/-- Operands that are evaluated in order by `d` levels of recursion. -/
theorem Computes.of_gather (act act' : Operation) (d : Nat) {n1 n2 : Nat}
    (hr : ReshapesAll es n1 rs n2)
    (hnone : ∀ m, m < d → ∀ env t, outcome (evalAs none m env r) t = none)
    (hgather : ∀ m env, evalAs none (m + d) env r = Eval.gather m env rs (act' m))
    (hact : ∀ {N M : Nat} {S : Stage} {vs vs' : List NamedValue} {F G : Rest},
      passing.Related S →
      passing.Continues N M S F G → List.Forall₂ (passing.Same S.links) vs vs' →
      vs.length = es.length → S.Meets passing N M (fun n => act n vs >>= F n)
        (fun m => act' m vs' >>= G m)) : Computes act es r := by
  have hvalues : ∀ {N M n : Nat} {T : Stage} {env : Env} {lo hi : Nat}
      {os : List (Option NamedValue)}
      {x : Nat → Eval Ident Unit NamedValue} {G : Rest}, passing.Related T →
      StandsAll n T env lo hi es os →
      (∀ S' vs vs', os = vs.map some → Stage.Within lo hi T S' → passing.Related S' →
        List.Forall₂ (passing.Same S'.links) vs vs' →
        S'.Meets passing N (M - d) x (fun m => act' m vs' >>= G (m + d))) →
      (none ∈ os → Fails x T.left) →
      T.Meets passing N M x (fun m => evalAs none m env r >>= G m) := by
    intro N M n T env lo hi os x G hT hall hnext hdead
    refine .rightBy d (fun m hm => ?_) ?_
    · rw [outcome_bind, hnone m hm]
    simp only [hgather, Eval.gather_bind]
    exact meets_gatherStandIns hall hr le_rfl (.refl lo T) hT
      (fun S' vs vs' hos hT' _ hS' hvs => hnext S' vs vs' hos hT' hS' hvs) hdead
  constructor
  · intro N M n S T env lo hi vs F G hlater hlo hT hall hnext
    refine hvalues hT hall (fun S' vs1 vs' hos hT' hS' hvs => ?_) (fun hnone => ?_)
    · obtain rfl : vs = vs1 := List.map_injective_iff.mpr (Option.some_injective _) hos
      have hlength : vs.length = es.length := by
        have := hall.length_eq
        rwa [List.length_map] at this
      have hcontinues := hnext.continues (hT'.later hlater hlo) hT'.grown
      exact hact hS' (fun S'' v v' hlater' hS'' hv =>
        (hcontinues S'' v v' hlater' hS'' hv).spareRightBy d) hvs hlength
    · simp at hnone
  · intro n T env lo hi os hT hall hstuck m f
    have hmeets : T.Meets passing 0 (m + 1) failure
        (fun m => evalAs none m env r >>= f) := by
      refine hvalues (G := fun _ => f) hT hall (fun S' vs vs' hos => ?_) (fun _ => fails_failure _)
      rw [hos] at hstuck
      simp at hstuck
    exact not_succeeds_of_meets hmeets (Nat.lt_succ_self m)

/-- A simple expression is converted in one way only. -/
theorem Converts.of_isSimple {k c : NamedExpr} {n n' : Nat} (h : Converts k e n c n')
    (hs : e.isSimple) : ∃ r, c = mkApp k [r] ∧ Reshapes e n r n' := by
  cases h with
  | simple _ hr => exact ⟨_, rfl, hr⟩
  | operands hs' he _ =>
    cases he with
    | values _ => simp_all [isSimple, allSimple_values]
    | _ => simp_all [isSimple, allSimple]
  | call hf _ _ _ => simp [isSimple, hf] at hs
  | and | or | cond => simp_all [isSimple]
  | letIn _ hs' _ _ _ _ => simp [isSimple, hs'] at hs
  | letOne hs' _ _ _ _ => simp [isSimple, defsSimple, defSimple, hs'] at hs
  | block hs' _ => simp [isSimple, hs'] at hs

section

variable {n n' N M B : Nat} {k e body c : NamedExpr}

/-- The continuation is called with what is made of the values of the operands. -/
theorem meets_applyComputed {act : Operation} (hr : Computes act es r) (hlater : S.Later T)
    (hlo : S.left.closures ≤ lo) (hT : passing.Related T)
    (hall : StandsAll n T env lo hi es (vs.map some))
    (hk : Receives n' N M S env F k) :
    T.Meets passing N M (fun n => act n vs >>= F n)
      (fun m => evalAs none m env (mkApp k [r])) := by
  refine meets_apply hT hlater hk (fun T' G hlater' hleft hT' hnext => ?_)
  exact hr.live (hlater.trans hlater') hlo hT' (hall.onward hlater'.onward (.refl _ _)) hnext

/-- An expression that cannot be evaluated is not passed on. -/
theorem never_apply (hT : passing.Related T) (hlater : S.Later T)
    (hk : Receives n N M S env F k)
    (hr : ∀ T', T.Later T' → passing.Related T' → ∀ (m : Nat)
      (f : NamedValue → Eval Ident Unit NamedValue),
        ¬ Succeeds (evalAs none m env r >>= f) T'.right)
    (m : Nat) (hm : m < M) : ¬ Succeeds (evalAs none m env (mkApp k [r])) T.right := by
  have hmeets : T.Meets passing N M failure
      (fun m => evalAs none m env (mkApp k [r])) :=
    meets_apply hT hlater hk (fun T' G hlater' _ hT' _ =>
      .of_fails (fails_failure _) (fun m _ => hr T' hlater' hT' m (G m)))
  exact not_succeeds_of_meets hmeets hm

/-- An expression that evaluates its operands in order and makes something of their values. -/
theorem sends_computed (es : List NamedExpr) (act : Operation) (hes : AllOriginal es)
    (hsend : ∀ e ∈ es, ¬ e.isSimple → SendsAlways B e)
    (hc : Chains k (temporaries n es) body (n + (temporaries n es).length) c n')
    (hs : body.isSimple)
    (hgather : ∀ n env, evalAs none (n + 1) env e.expand =
      Eval.gather n env (expandAll es) (act n))
    (hbody : ∀ n0 r n0', Reshapes body n0 r n0' → Computes act (standIns n es) r) :
    Sends B n k e c := by
  intro N M S env env' F hB hS henv hk
  refine .left rfl ?_
  simp only [hgather, Eval.gather_bind]
  refine meets_operands ⟨hsend, hes, ⟨n', hc⟩, le_rfl, .refl S, hS, henv⟩ (by omega) ?_ ?_
  · intro T env1 vs n0 c0 h
    obtain ⟨_, hc0⟩ := h.converts
    obtain ⟨r, rfl, hr⟩ := hc0.of_isSimple hs
    exact meets_applyComputed (hbody _ _ _ hr) h.later le_rfl h.related h.stands
      (hk.spareLeft.agrees h.agrees)
  · intro T env1 os n0 c0 h hnone
    obtain ⟨_, hc0⟩ := h.converts
    obtain ⟨r, rfl, hr⟩ := hc0.of_isSimple hs
    exact never_apply h.related h.later (hk.agrees h.agrees) (fun T' hlater' hT' =>
      (hbody _ _ _ hr).dead hT' (h.stands.onward hlater'.onward (.refl _ _)) hnone)

end

/-! ## Operators -/

def unaryOn (op : UnaryOp) : Operation
  | n, [v] => Eval.unary n op v
  | _, _ => EvalOps.exhausted

noncomputable def binaryOn (op : BinaryOp) : Operation
  | n, [v, w] => Eval.operateAs none n op v w
  | _, _ => EvalOps.exhausted

noncomputable def primOn (p : Prim) : Operation
  | n, [v] => Eval.primitive n (watched none n) p v
  | n, [v, w] =>
    if w.isList then modifyGet (fun s => s.newPair (.ready v) (.ready w))
    else do throw (.notAList Prim.cons.name (← Eval.shown n w))
  | _, _ => EvalOps.exhausted

section

variable {n n1 n2 N M B : Nat} {k c : NamedExpr} {s : Span}

/-- A prefix operator is sent when its operand is. -/
theorem sends_unary {op : UnaryOp} (he : e.Original) (hsend : SendsAlways B e)
    (hc : Chains k (temporaries n [e]) (.unary s op (standIn n e)) (n + (temporaries n [e]).length)
      c n1) : Sends B n k (.unary s op e) c := by
  refine sends_computed [e] (unaryOn op) ⟨he, trivial⟩
    (fun e' he' _ => by rw [List.mem_singleton.mp he']; exact hsend) hc (isSimple_standIn n e)
    (fun _ _ => rfl) ?_
  · intro n0 r n0' hr
    cases hr with
    | unary hr =>
      refine .of_gather (unaryOn op) (unaryOn op) 1 (.cons hr (.nil _)) ?_ (fun _ _ => rfl) ?_
      · intro m hm env t
        rw [Nat.lt_one_iff.mp hm]
        rfl
      · intro N M S vs vs' F G hS hnext hvs hlength
        obtain ⟨v, v', rfl, rfl, hv⟩ := forall₂_one hvs hlength
        exact Scheme.meets_unary hS hnext op hv

variable {r l : NamedExpr} {p : Prim} {args : List NamedExpr} {s1 : Span}

/-- An operator is sent when its operands are. -/
theorem sends_binary {op : BinaryOp} (hand : op ≠ .and) (hor : op ≠ .or) (hassign : op ≠ .assign)
    (he : AllOriginal [l, r]) (hsend : ∀ e ∈ [l, r], ¬ e.isSimple → SendsAlways B e)
    (hc : Chains k (temporaries n [l, r]) (.binary s op (standIn n l) (standIn (countAfter n l) r))
      (n + (temporaries n [l, r]).length) c n1) : Sends B n k (.binary s op l r) c := by
  have hgather : ∀ n env l r, evalAs none (n + 1) env (.binary s op l r) =
      Eval.gather n env [l, r] (binaryOn op n) :=
    fun n env l r => evalAs_binary none n env s hand hor hassign l r
  refine sends_computed [l, r] (binaryOn op) he hsend hc ?_ (fun n env => ?_) ?_
  · simp [isSimple, isSimple_standIn]
  · rw [expand_binary s hand hor]
    exact hgather n env _ _
  · intro n0 q n0' hr
    cases hr with
    | binary hl hr =>
      refine .of_gather (binaryOn op) (binaryOn op) 1 (.cons hl (.cons hr (.nil _)))
        ?_
        (fun m env => hgather m env _ _) ?_
      · intro m hm env t
        rw [Nat.lt_one_iff.mp hm]
        rfl
      · intro N M S vs vs' F G hS hnext hvs hlength
        obtain ⟨v, w, v', w', rfl, rfl, hv, hw⟩ := forall₂_two hvs hlength
        exact Scheme.meets_operateAs (σ := passing) hS hnext op hv hw

/-! ## Primitives that are called by name -/

/-- A primitive with as many arguments as it takes evaluates them in order. -/
theorem evalAs_primGather (m : Nat) (env : Env) (s1 : Span) (h : args.length = p.parameters) :
    evalAs none (m + 1) env (.app s (.prim s1 p) args) =
      Eval.gather m env args (primOn p m) := by
  by_cases hcons : p = .cons
  · subst hcons
    obtain ⟨e, e', rfl⟩ := List.length_eq_two.mp h
    cases m with
    | zero => rfl
    | succ m =>
      rw [evalAs_primApp, Eval.applyPrim, Eval.cons_value _ _ Machine.isEager_eager]
      rfl
  · have hone := Prim.parameters_of_ne_cons hcons
    obtain ⟨e, rfl⟩ := List.length_eq_one_iff.mp (h.trans hone)
    cases m with
    | zero => rfl
    | succ m =>
      rw [evalAs_primApp, Eval.applyPrim_one _ _ _ hone]
      rfl

/-- A primitive with another number of arguments than it takes does not return. -/
theorem not_succeeds_primApp (m : Nat) (env : Env) (s1 : Span) (h : args.length ≠ p.parameters)
    (f : NamedValue → Eval Ident Unit NamedValue) (t : NamedStore) :
    ¬ Succeeds (evalAs none m env (.app s (.prim s1 p) args) >>= f) t := by
  rintro ⟨v, t', hok⟩
  match m with
  | 0 | 1 => cases hok
  | m + 2 =>
    rw [evalAs_primApp, Eval.applyPrim_of_length_ne _ _ _ h] at hok
    cases hok

/-- A primitive, but for `arity`, makes the same of values that are the same. -/
theorem meets_primOn (hp : p ≠ .arity) {vs' : List NamedValue} (hS : passing.Related S)
    (hnext : passing.Continues N M S F G)
    (hvs : List.Forall₂ (passing.Same S.links) vs vs')
    (hlength : vs.length = p.parameters) :
    S.Meets passing N M (fun n => primOn p n vs >>= F n)
      (fun m => primOn p m vs' >>= G m) := by
  by_cases hcons : p = .cons
  · subst hcons
    obtain ⟨v, w, v', w', rfl, rfl, hv, hw⟩ := forall₂_two hvs hlength
    exact Scheme.meets_pair hS hnext hv hw
  · obtain ⟨v, v', rfl, rfl, hv⟩ :=
      forall₂_one hvs (hlength.trans (Prim.parameters_of_ne_cons hcons))
    exact Scheme.meets_primitive hS hnext hp hv

/-- What is made of the values of the arguments of a primitive. -/
theorem computes_prim (hlength : es.length = p.parameters)
    (hr : Reshapes (.app s (.prim s1 p) es) n1 r n2) : Computes (primOn p) es r := by
  cases hr with
  | arity hf hr =>
    obtain rfl : p = .arity := by
      cases p with
      | arity => rfl
      | _ => simp [isArity] at hf
    refine .of_gather (primOn .arity) (fun m vs => primOn .arity m vs >>= fun a =>
      Eval.arithmetic (m + 1) .sub a (.int 1)) 2 hr ?_ (fun m env => ?_) ?_
    · intro m hm env t
      match m with
      | 0 | 1 => rfl
    · rw [evalAs_binary _ _ _ _ (by decide : BinaryOp.sub ≠ .and) (by decide) (by decide),
        evalAs_primGather m env s1 (hr.length_eq.trans hlength), Eval.gather_bind]
      rfl
    · intro N M S vs vs' F G hS hnext hvs hlength'
      obtain ⟨v, v', rfl, rfl, hv⟩ := forall₂_one hvs (hlength'.trans hlength)
      simp only [primOn, bind_assoc]
      exact meets_arityLess hv (fun m => m + 1) (fun a => hnext.now hS (.int a))
  | app hf hr =>
    have hp : p ≠ .arity := fun hp => hf (by rw [hp]; rfl)
    refine .of_gather (primOn p) (primOn p) 1 hr ?_
      (fun m env => evalAs_primGather m env s1 (hr.length_eq.trans hlength)) ?_
    · intro m hm env t
      rw [Nat.lt_one_iff.mp hm]
      rfl
    · intro N M S vs vs' F G hS hnext hvs hlength'
      exact meets_primOn hp hS hnext hvs (hlength'.trans hlength)

/-- A primitive with another number of arguments than it takes, after conversion. -/
theorem not_succeeds_reshapedPrim (hlength : es.length ≠ p.parameters)
    (hr : Reshapes (.app s (.prim s1 p) es) n1 r n2) (m : Nat) (env : Env)
    (f : NamedValue → Eval Ident Unit NamedValue) (t : NamedStore) :
    ¬ Succeeds (evalAs none m env r >>= f) t := by
  cases hr with
  | arity _ hr =>
    cases m with
    | zero => rintro ⟨v, t', ⟨⟩⟩
    | succ m =>
      rw [evalAs_binary _ _ _ _ (by decide : BinaryOp.sub ≠ .and) (by decide) (by decide),
        bind_assoc]
      exact not_succeeds_primApp m env s1 (fun heq => hlength (hr.length_eq.symm.trans heq)) _ t
  | app _ hr =>
    exact not_succeeds_primApp m env s1 (fun heq => hlength (hr.length_eq.symm.trans heq)) f t

/-- A call of a primitive is sent when its arguments are. -/
theorem sends_primCall (hargs : AllOriginal args)
    (hsend : ∀ e ∈ args, ¬ e.isSimple → SendsAlways B e)
    (hc : Chains k (temporaries n args) (.app s (.prim s1 p) (standIns n args))
      (n + (temporaries n args).length) c n1) :
    Sends B n k (.app s (.prim s1 p) args) c := by
  have hsimple : (Expr.app s (.prim s1 p) (standIns n args) : NamedExpr).isSimple := by
    simp [isSimple, isPrim, allSimple_standIns]
  have hexpand : (Expr.app s (.prim s1 p) args : NamedExpr).expand =
      .app s (.prim s1 p) (expandAll args) := rfl
  by_cases hlength : args.length = p.parameters
  · refine sends_computed args (primOn p) hargs hsend hc hsimple (fun n env => ?_)
      (fun n0 r n0' hr => ?_)
    · rw [hexpand]
      exact evalAs_primGather n env s1 ((length_expandAll args).trans hlength)
    · exact computes_prim ((length_standIns n args).trans hlength) hr
  · intro N M S env env' F hB hS henv hk
    have hleft : ∀ n, evalAs none (n + 1 + 1) env (.app s (.prim s1 p) (expandAll args)) =
        throw (.arityMismatch p.name p.parameters (expandAll args).length) := by
      intro n
      rw [evalAs_primApp]
      exact Eval.applyPrim_of_length_ne _ _ env (by rwa [length_expandAll])
    refine .left rfl (.left rfl ?_)
    simp only [hexpand, hleft]
    refine .of_fails ((Fails.throw _).bind _) (chains_never
      ⟨hsend, hargs, ⟨n1, hc⟩, le_rfl, .refl S, hS, henv⟩ (by omega) ?_)
    intro T env1 os n0 c0 h _
    obtain ⟨_, hc0⟩ := h.converts
    obtain ⟨r, rfl, hr⟩ := hc0.of_isSimple hsimple
    refine never_apply h.related h.later (hk.agrees h.agrees) (fun T' _ _ m f => ?_)
    exact not_succeeds_reshapedPrim (by rwa [length_standIns]) hr m env1 f _

/-! ## Assignment -/

def assignOn : Operation
  | _, [.ref i, w] => modify (fun s => s.setCell i w) >>= fun _ => pure .unit
  | n, v :: _ => Eval.mismatch n BinaryOp.assign.symbol v
  | _, _ => EvalOps.exhausted

/-- What stands for the operands of an assignment is evaluated, as far as an assignment does. -/
theorem meets_assignStandIns {l' r' : NamedExpr}
    {n3 : Nat}
    (hT : passing.Related T) (hall : StandsAll n T env lo hi [l, r] os)
    (hl : Reshapes l n1 l' n2) (hr : Reshapes r n2 r' n3)
    (hnext : ∀ S' i i' w w', os = [some (.ref i), some w] → Stage.Within lo hi T S' →
      passing.Related S' → .cell i i' ∈ S'.links → passing.Same S'.links w w' →
      S'.Meets passing N (M - 1) x
        (fun m => modify (fun s => s.setCell i' w') >>= fun _ => G (m + 1) .unit))
    (hdead : (∀ i w, os ≠ [some (.ref i), some w]) → Fails x T.left) :
    T.Meets passing N M x
      (fun m => evalAs none m env (.binary s .assign l' r') >>= G m) := by
  cases hall with
  | @cons _ mid _ _ _ o os hmid hstl hall =>
  cases hall with
  | @cons _ hi _ _ _ o' os hmid' hstr hall =>
  cases hall with
  | nil hle =>
  have hassign : ∀ m (f : NamedValue → Eval Ident Unit NamedValue),
      evalAs none (m + 1) env (.binary s .assign l' r') >>= f =
        Eval.assign m (watched none m) .eager env l' r' >>= f :=
    fun _ _ => rfl
  refine .right rfl ?_
  simp only [hassign, Eval.assign, bind_assoc]
  refine meets_standIn hstl hmid hl le_rfl (.refl lo T) hT
    (fun S1 v v' ho hT1 _ hgrows hS1 hv => ?_) (fun ho => hdead (by simp [ho]))
  cases hv with
  | @ref i i' hcell =>
    simp only [bind_assoc, pure_bind]
    refine meets_standIn hstr hmid' hr hmid hT1 hS1
      (fun S2 w w' ho' hT2 _ hgrows' hS2 hw => ?_) (fun ho' => ?_)
    · exact hnext S2 i i' w w' (by rw [ho, ho']) (hT2.widen hle) hS2 (hgrows' hcell) hw
    · rw [hT1.left]
      exact hdead (by simp [ho'])
  | _ =>
    refine .of_both_fail ?_ ((Fails.mismatch _ _ _).bind _)
    rw [hT1.left]
    exact hdead (by simp [ho])

/-- A reshaped assignment computes what assigning does with the operands. -/
theorem computes_assign {q : NamedExpr} (hr : Reshapes (.binary s .assign l r) n1 q n2) :
    Computes assignOn [l, r] q := by
  cases hr with
  | @binary _ l' _ r' _ _ _ _ _ hl hr =>
  constructor
  · intro N M n S T env lo hi vs F G hlater hlo hT hall hnext
    have hlength : vs.length = 2 := by
      have := hall.length_eq
      rwa [List.length_map] at this
    obtain ⟨v, w, rfl⟩ := List.length_eq_two.mp hlength
    refine meets_assignStandIns hT hall hl hr (fun S' i i' w1 w' hos hW hS' hcell hw => ?_)
      (fun hbad => ?_)
    · cases hos
      have hlater' := S'.later_setCell i i' w w'
      exact (hnext _ .unit .unit ((hW.later hlater hlo).trans hlater')
        (hW.grown.trans hlater'.grown) (Stage.related_setCell hS' hcell hw) .unit).spareRight
    · cases v with
      | ref i => exact absurd rfl (hbad i w)
      | _ => exact (Fails.mismatch _ _ _).bind _
  · intro n T env lo hi os hT hall hstuck m f
    have hmeets : T.Meets passing 0 (m + 1) failure
        (fun m => evalAs none m env (.binary s .assign l' r') >>= f) := by
      refine meets_assignStandIns (G := fun _ => f) hT hall hl hr (fun S' i i' w w' hos => ?_)
        (fun _ => fails_failure _)
      rw [hos] at hstuck
      simp at hstuck
    exact not_succeeds_of_meets hmeets (Nat.lt_succ_self m)

/-- An assignment is sent: the reference comes first, then the value. -/
theorem sends_assign (he : AllOriginal [l, r])
    (hsend : ∀ e ∈ [l, r], ¬ e.isSimple → SendsAlways B e)
    (hc : Chains k (temporaries n [l, r])
      (.binary s .assign (standIn n l) (standIn (countAfter n l) r))
      (n + (temporaries n [l, r]).length) c n1) : Sends B n k (.binary s .assign l r) c := by
  have hsimple : (Expr.binary s .assign (standIn n l) (standIn (countAfter n l) r)).isSimple := by
    simp [isSimple, isSimple_standIn]
  intro N M S env env' F hB hS henv hk
  have hdead : Dead M k (.binary s .assign (standIn n l) (standIn (countAfter n l) r)) S S env'
      n [l, r] (none ∈ ·) := by
    intro T env1 os n0 c0 h hnone
    obtain ⟨_, hc0⟩ := h.converts
    obtain ⟨q, rfl, hq⟩ := hc0.of_isSimple hsimple
    exact never_apply h.related h.later (hk.agrees h.agrees) (fun T' hlater' hT' =>
      (computes_assign hq).dead hT' (h.stands.onward hlater'.onward (.refl _ _)) hnone)
  refine .left rfl ?_
  have hassign : ∀ n (f : NamedValue → Eval Ident Unit NamedValue),
      evalAs none (n + 1) env (.binary s .assign l.expand r.expand) >>= f =
        Eval.assign n (watched none n) .eager env l.expand r.expand >>= f :=
    fun _ _ => rfl
  simp only [expand_binary s (by decide : BinaryOp.assign ≠ .and) (by decide), hassign,
    Eval.assign, bind_assoc]
  refine meets_firstOperand ⟨hsend, he, ⟨n1, hc⟩, le_rfl, .refl S, hS, henv⟩ (by omega) hdead
    (fun {S1 env1 v n1 c} h1 hrest => ?_)
  -- the right evaluates the other operand in any case
  have hmeets : S1.Meets passing (N - 1) M
      (fun n => Eval.gather n env (expandAll [r])
        (fun ws => assignOn n (v :: ws) >>= F (n + 1)))
      (fun m => evalAs none m env1 c) := by
    refine meets_operands hrest (by omega) (fun {T env2 ws n0 c0} h => ?_)
      (fun h hnone => hdead (h1.cons h) (List.mem_cons_of_mem _ hnone))
    have h : Evaluated k _ S S env' n [l, r] T env2 ((v :: ws).map some) n0 c0 := h1.cons h
    obtain ⟨_, hc0⟩ := h.converts
    obtain ⟨q, rfl, hq⟩ := hc0.of_isSimple hsimple
    exact meets_applyComputed (computes_assign hq) h.later le_rfl h.related h.stands
      (hk.spareLeft.agrees h.agrees)
  cases v with
  | ref i => simpa only [expandAll, Eval.gather, assignOn, bind_assoc] using hmeets
  | _ =>
    refine .of_fails ((Fails.mismatch _ _ _).bind _) (hmeets.not_succeeds (fun n => ?_) not_excused)
    rintro ⟨u, t, hok⟩
    obtain ⟨w, t1, -, hrest⟩ := outcome_bind_ok.mp hok
    exact ((Fails.mismatch _ _ t1).bind (fun n => F (n + 1))).never n ⟨u, t, hrest⟩

end

end Conversion

end Mapling
