import Mapling.Proofs.Continuation.Expansion
import Mapling.Proofs.Continuation.FreshNames

/-! # Values that are passed on

A converted expression does not return its value but passes it to a continuation. So what comes
after an expression on the left is matched on the right by the continuation: it receives what
comes next (`Receives`) if calling it with a value meets what comes next after a value that is the
same. A continuation is a function in the text or a variable that holds one, and it stays what it
is in later stores and under definitions of other names.

Simple expressions are no exception to evaluation. They are reshaped in place, and track what they
are reshaped to (`tracks_of_reshapes`); only `arity` has to take the continuation off again. -/

namespace Mapling

variable {ps ps' : List Ident} {b b' e k r : NamedExpr} {G : Rest} {T : Stage}

namespace Expr

open Conversion (IsMade)

mutual

/-- No name in the expression is made, and the parameters of each function can be counted by an
integer. -/
def Original : NamedExpr → Prop
  | .int _ _ | .bool _ _ | .null _ | .prim _ _ => True
  | .var _ x => ¬ IsMade x.name
  | .unary _ _ e => e.Original
  | .binary _ _ l r => l.Original ∧ r.Original
  | .app _ f args => f.Original ∧ AllOriginal args
  | .map _ params _ body =>
    (∀ x ∈ params, ¬ IsMade x.name) ∧ (params.length : Int) ≤ maxInt ∧ body.Original
  | .cond _ t a b => t.Original ∧ a.Original ∧ b.Original
  | .letIn _ _ defs _ body => DefsOriginal defs ∧ body.Original
  | .block _ es => AllOriginal es

def AllOriginal : List NamedExpr → Prop
  | [] => True
  | e :: es => e.Original ∧ AllOriginal es

def DefsOriginal : List (Ident × NamedExpr) → Prop
  | [] => True
  | d :: ds => DefOriginal d ∧ DefsOriginal ds

def DefOriginal : Ident × NamedExpr → Prop
  | (x, e) => ¬ IsMade x.name ∧ e.Original

end

end Expr

namespace Conversion

open Mapling.Expr

/-! ## The scheme -/

/-- A function and what conversion makes of it: its body is converted with the last parameter as
the continuation. -/
inductive Passing : List Ident → NamedExpr → List Ident → NamedExpr → Prop
  | map {ps : List Ident} {e c : NamedExpr} {n n' : Nat} (hnames : ∀ x ∈ ps, ¬ IsMade x.name)
      (hcount : (ps.length : Int) ≤ maxInt) (he : e.Original)
      (hc : Converts (mkVar (freshName (n + 1))) e (n + 1) c n') :
      Passing ps e.expand (ps ++ [freshName (n + 1)]) c
  | prim (p : Prim) (n : Nat) :
      Passing (primParams p) (primBody p)
        (namesAfter n p.parameters ++ [freshName (n + p.parameters + 1)])
        (mkApp (mkVar (freshName (n + p.parameters + 1)))
          [primResult p ((namesAfter n p.parameters).map mkVar)])

theorem length_namesAfter (n a : Nat) : (namesAfter n a).length = a := by
  induction a generalizing n with
  | zero => rfl
  | succ a ih => rw [namesAfter, List.length_cons, ih]

theorem Passing.length (h : Passing ps b ps' b') : ps'.length = ps.length + 1 := by
  cases h with
  | map => rw [List.length_append, List.length_singleton]
  | prim p n =>
    rw [List.length_append, List.length_singleton, length_namesAfter, length_primParams]

theorem Passing.length_le (h : Passing ps b ps' b') : (ps.length : Int) ≤ maxInt := by
  cases h with
  | map _ hcount _ _ => exact hcount
  | prim p n =>
    rw [length_primParams]
    cases p <;> decide

def passing : Scheme where
  names x := ¬ IsMade x
  surplus := 1
  code := Passing
  prim _ _ _ := False
  marker := none
  code_arity h := h.length
  prim_arity h := h.elim
  marked h := h.elim

/-! ## Simple expressions -/

section

variable {B : Nat} {w : List Link} {env env' : Env}

/-- The arity of a converted function is that of the function without its continuation. -/
theorem meets_arityLess {N M : Nat} {S : Stage} {F : Rest} {evL evR : Nat → Evaluator Ident Unit}
    {v v' : NamedValue} (hv : passing.Same S.links v v') (level : Nat → Nat)
    (hnext : ∀ a : Nat, S.Meets passing N M (fun n => F n (.int a))
      (fun m => G m (.int a))) :
    S.Meets passing N M (fun n => Eval.primitive n (evL n) .arity v >>= F n)
      (fun m => Eval.primitive m (evR m) .arity v' >>=
        fun a => Eval.arithmetic (level m) .sub a (.int 1) >>= G m) := by
  refine Scheme.meets_arity (σ := passing) hv (fun a ha => ?_)
  have hcount : minInt ≤ (a : Int) ∧ (a : Int) ≤ maxInt := by
    rcases ha with ⟨ps, b, ps', b', hcode, rfl⟩ | ⟨_, _, _, hprim, _⟩
    · exact ⟨by simp [minInt], Passing.length_le hcode⟩
    · exact hprim.elim
  have hsub : ∀ m, Eval.arithmetic m .sub (.int ((a + 1 : Nat) : Int)) (.int 1) =
      (pure (.int a) : Eval Ident Unit NamedValue) := by
    intro m
    have hone : ((a + 1 : Nat) : Int) - 1 = a := by omega
    simp only [Eval.arithmetic, BinaryOp.onInts, hone, checkedInt, if_pos hcount]
    rfl
  have hsurplus : passing.surplus = 1 := rfl
  simp only [hsurplus, hsub, pure_bind]
  exact hnext a

/-- A call of `arity` and what it is reshaped to. -/
theorem tracksIn_arity {e' : NamedExpr} (he : passing.TracksIn B w env env' e e')
    (s s' s1 s1' s2 s3 : Span) :
    passing.TracksIn B w env env' (.app s (.prim s1 .arity) [e])
      (.binary s' .sub (.app s3 (.prim s1' .arity) [e']) (.int s2 1)) := by
  intro N M S F G hB hS hw hnext
  refine .left rfl (.left rfl (.right rfl (.right rfl (.right rfl ?_))))
  have hleft : ∀ n, evalAs none (n + 1 + 1) env (.app s (.prim s1 .arity) [e]) =
      evalAs none (n + 1) env e >>= Eval.primitive (n + 1)
        (watched none (n + 1)) .arity := fun _ => rfl
  have hright : ∀ m, evalAs none (m + 1 + 1 + 1) env'
      (.binary s' .sub (.app s3 (.prim s1' .arity) [e']) (.int s2 1)) =
      (evalAs none (m + 1) env' e' >>= Eval.primitive (m + 1)
        (watched none (m + 1)) .arity) >>= fun a =>
          Eval.arithmetic (m + 2) .sub a (.int 1) := fun _ => rfl
  have hmarker : passing.marker = none := rfl
  simp only [hmarker, hleft, hright, bind_assoc]
  -- both sides are the value of the argument and what comes after it, with a level to spare
  refine Meets.spareLeft (x := fun n => evalAs none n env e >>= fun v => Eval.primitive n
      (watched none n) .arity v >>= F (n + 1)) (Meets.spareRight
    (y := fun m => evalAs none m env' e' >>= fun v => Eval.primitive m
      (watched none m) .arity v >>= fun a =>
        Eval.arithmetic (m + 1) .sub a (.int 1) >>= G (m + 2)) ?_)
  refine he _ _ S _ _ (by omega) hS hw (fun S' v v' hlater hS' hv => ?_)
  exact meets_arityLess hv (fun m => m + 1)
    (fun a => (hnext S' _ _ hlater hS' (.int a)).spareLeft.spareRight.spareRight)

/-- The primitive `arity` called by its name. -/
theorem tracksIn_arityCall {args args' : List NamedExpr}
    (hargs : List.Forall₂ (passing.TracksIn B w env env') args args')
    (s s' s1 s1' s2 s3 : Span) :
    passing.TracksIn B w env env' (.app s (.prim s1 .arity) args)
      (.binary s' .sub (.app s3 (.prim s1' .arity) args') (.int s2 1)) := by
  by_cases hlength : args.length = 1
  · obtain ⟨e, e', rfl, rfl, he⟩ := forall₂_one hargs hlength
    exact tracksIn_arity he s s' s1 s1' s2 s3
  · have hlength' : args'.length ≠ 1 := hargs.length_eq ▸ hlength
    intro N M S F G hB hS hw hnext
    refine .left rfl (.left rfl (.right rfl (.right rfl (.right rfl ?_))))
    have hleft : ∀ n, evalAs none (n + 1 + 1) env (.app s (.prim s1 .arity) args) =
        throw (.arityMismatch Prim.arity.name 1 args.length) :=
      fun n => Eval.applyPrim_of_length_ne (n + 1) _ env hlength
    have hright : ∀ m, evalAs none (m + 1 + 1 + 1) env'
        (.binary s' .sub (.app s3 (.prim s1' .arity) args') (.int s2 1)) =
        throw (.arityMismatch Prim.arity.name 1 args'.length) := by
      intro m
      rw [evalAs_binary _ _ _ _ (by decide : BinaryOp.sub ≠ .and) (by decide) (by decide),
        evalAs_primApp,
        Eval.applyPrim_of_length_ne (m + 1) _ env' hlength']
      rfl
    have hmarker : passing.marker = none := rfl
    simp only [hmarker, hleft, hright]
    exact .of_first_fails (.throw _) (.throw _)

mutual

/-- A simple expression does what its reshaped form does. -/
theorem tracks_of_reshapes {e r : NamedExpr} {n n' : Nat} (h : Reshapes e n r n')
    (hs : e.isSimple) (he : e.Original) : passing.Tracks B e.expand r := by
  match h with
  | .int s i _ => exact .int s s i
  | .bool s b _ => exact .bool s s b
  | .null s _ => exact .null s s
  | .var s x _ => exact .var s s he
  | .prim s p n => exact .map _ _ (.prim p n)
  | .map hb => exact .map _ _ (.map he.1 he.2.1 he.2.2 hb)
  | .arity (f := f) hf hr =>
    simp only [isSimple, Bool.and_eq_true] at hs
    have hargs := tracksAll_of_reshapes hr hs.2 he.2
    rw [expand, if_pos hs.1]
    cases f with
    | prim s1 p =>
      cases p with
      | arity =>
        exact .of_tracksIn (fun w env env' henv => tracksIn_arityCall
          (hargs.imp fun _ _ he => he.tracksIn henv) _ _ _ _ _ _)
      | _ => simp [isArity] at hf
    | _ => simp [isPrim] at hs
  | .app (f := f) hf hr =>
    simp only [isSimple, Bool.and_eq_true] at hs
    have hargs := tracksAll_of_reshapes hr hs.2 he.2
    rw [expand, if_pos hs.1]
    cases f with
    | prim s1 p =>
      refine .primApp _ _ _ _ (fun hp => ?_) hargs
      exact absurd (by rw [hp]; rfl) hf
    | _ => simp [isPrim] at hs
  | .unary hr => exact .unary _ _ _ (tracks_of_reshapes hr (by simpa [isSimple] using hs) he)
  | .binary hl hr =>
    have hsimple := hs
    simp only [isSimple, Bool.and_eq_true] at hsimple
    rw [expand_binary_of_simple _ _ (by simpa [isSimple] using hs)]
    exact .binary _ _ _ (tracks_of_reshapes hl hsimple.1 he.1)
      (tracks_of_reshapes hr hsimple.2 he.2)
  | .cond ht ha hb =>
    simp only [isSimple, Bool.and_eq_true] at hs
    exact .cond _ _ (tracks_of_reshapes ht hs.1.1 he.1) (tracks_of_reshapes ha hs.1.2 he.2.1)
      (tracks_of_reshapes hb hs.2 he.2.2)
  | .letIn hd hb =>
    simp only [isSimple, Bool.and_eq_true] at hs
    refine .letIn _ _ _ ?_ ?_ (tracks_of_reshapes hb hs.2 he.2)
    · rw [defNames_expandDefs, hd.defNames]
    · rw [defValues_expandDefs]
      exact tracksDefs_of_reshapes hd hs.1 he.1
  | .block hr => exact .block _ _ (tracksAll_of_reshapes hr (by simpa [isSimple] using hs) he)

theorem tracksAll_of_reshapes {es es' : List NamedExpr} {n n' : Nat}
    (h : ReshapesAll es n es' n') (hs : allSimple es) (hes : AllOriginal es) :
    List.Forall₂ (passing.Tracks B) (expandAll es) es' := by
  match h with
  | .nil _ => exact .nil
  | .cons hr hrs =>
    simp only [allSimple, Bool.and_eq_true] at hs
    exact .cons (tracks_of_reshapes hr hs.1 hes.1) (tracksAll_of_reshapes hrs hs.2 hes.2)

theorem tracksDefs_of_reshapes {ds ds' : List (Ident × NamedExpr)} {n n' : Nat}
    (h : ReshapesDefs ds n ds' n') (hs : defsSimple ds) (hds : DefsOriginal ds) :
    List.Forall₂ (passing.Tracks B) (expandAll (defValues ds)) (defValues ds') := by
  match h with
  | .nil _ => exact .nil
  | .cons hr hrs =>
    simp only [defsSimple, defSimple, Bool.and_eq_true] at hs
    exact .cons (tracks_of_reshapes hr hs.1 hds.1.2) (tracksDefs_of_reshapes hrs hs.2 hds.2)

end

end

/-! ## Environments -/

/-- The environments have the same bindings for the names that are known when `n` names have been
made. -/
def Agrees (n : Nat) (env env1 : Env) : Prop := ∀ x, Known n x → env1.find? x = env.find? x

namespace Agrees

variable {n n' : Nat} {env env1 env2 : Env}

theorem refl (n : Nat) (env : Env) : Agrees n env env := fun _ _ => rfl

theorem trans (h : Agrees n env env1) (h' : Agrees n env1 env2) : Agrees n env env2 :=
  fun x hx => (h' x hx).trans (h x hx)

theorem mono (h : Agrees n' env env1) (hn : n ≤ n') : Agrees n env env1 :=
  fun x hx => h x (hx.mono hn)

/-- A frame for a name that was made later. -/
theorem cons {i : Nat} (hi : n < i) (j : Nat) (env : Env) :
    Agrees n env ([⟨(freshName i).name, j⟩] :: env) := by
  intro x hx
  refine Scheme.find?_cons_of_foreign (fun b hb heq => ?_) env
  rw [List.mem_singleton.mp hb] at heq
  exact hx i hi heq.symm

theorem envs {w : List Link} (h : Agrees n env1 env2) (henv : passing.Envs w env env1) :
    passing.Envs w env env2 := by
  intro x hx
  rw [h x (known_of_not_isMade hx n)]
  exact henv x hx

end Agrees

/-! ## Continuations -/

/-- Calling a function with a value meets `F` after a value that is the same. The function has the
parameter `x`, the body `e` and the environment `env`; its parameter is in a slot of its own. -/
def Calls (N M : Nat) (S : Stage) (x : Ident) (e : NamedExpr) (env : Env)
    (F : Rest) : Prop :=
  ∀ S' v v' j, S.Later S' → passing.Related S' → passing.Same S'.links v v' →
    S.right.slots.size ≤ j → S'.right.slot j = .ready v' → (∀ i, .slot i j ∉ S'.links) →
    Meets passing.goal N M (fun n => F n v) S'.left
      (fun m => evalAs none m ([⟨x.name, j⟩] :: env) e) S'.right

/-- The continuation `k` receives what comes next: it is a function that calls with it, or a
variable that holds one. -/
inductive Receives (n N M : Nat) (S : Stage) (env : Env) (F : Rest) :
    NamedExpr → Prop
  | var {s : Span} {x y : Ident} {b : Binding} {i : Nat} {e : NamedExpr} {env1 : Env}
      (hmade : IsMade x.name) (hknown : Known n x.name) (hb : env.find? x.name = some b)
      (hv : S.right.slot b.slot = .ready (.closure i ⟨[y], (), e, env1⟩))
      (hcalls : Calls N M S y e env1 F) : Receives n N M S env F (.var s x)
  | map {s : Span} {y : Ident} {e : NamedExpr}
      (hcalls : ∀ env1, Agrees n env env1 → Calls N M S y e env1 F) :
      Receives n N M S env F (.map s [y] () e)

section

variable {n n' N M N' M' : Nat} {S S' : Stage} {x : Ident} {e k : NamedExpr} {env env1 : Env}
  {F : Rest}

theorem Calls.later (h : Calls N M S x e env F) (hlater : S.Later S') :
    Calls N M S' x e env F :=
  fun S'' v v' j hlater' hS'' hv hj => h S'' v v' j (hlater.trans hlater') hS'' hv
    (Nat.le_trans hlater.right.size hj)

theorem Calls.mono (h : Calls N M S x e env F) (hN : N' ≤ N) (hM : M' ≤ M) :
    Calls N' M' S x e env F :=
  fun S' v v' j hlater hS' hv hj hslot hfree =>
    (h S' v v' j hlater hS' hv hj hslot hfree).mono hN hM

theorem Calls.spareLeft (h : Calls N M S x e env F) :
    Calls (N - 1) M S x e env (fun n => F (n + 1)) :=
  fun S' v v' j hlater hS' hv hj hslot hfree => (h S' v v' j hlater hS' hv hj hslot hfree).spareLeft

namespace Receives

section

variable (h : Receives n N M S env F k)
include h

theorem later (hlater : S.Later S') : Receives n N M S' env F k := by
  cases h with
  | var hmade hknown hb hv hcalls =>
    exact .var hmade hknown hb (hlater.right.ready hv) (hcalls.later hlater)
  | map hcalls => exact .map (fun env1 hagrees => (hcalls env1 hagrees).later hlater)

theorem agrees (hagrees : Agrees n env env1) : Receives n N M S env1 F k := by
  cases h with
  | var hmade hknown hb hv hcalls =>
    exact .var hmade hknown (by rw [hagrees _ hknown]; exact hb) hv hcalls
  | map hcalls => exact .map (fun env2 hagrees2 => hcalls env2 (hagrees.trans hagrees2))

theorem known (hn : n ≤ n') : Receives n' N M S env F k := by
  cases h with
  | var hmade hknown hb hv hcalls => exact .var hmade (hknown.mono hn) hb hv hcalls
  | map hcalls => exact .map (fun env1 hagrees => hcalls env1 (hagrees.mono hn))

theorem mono (hN : N' ≤ N) (hM : M' ≤ M) : Receives n N' M' S env F k := by
  cases h with
  | var hmade hknown hb hv hcalls => exact .var hmade hknown hb hv (hcalls.mono hN hM)
  | map hcalls => exact .map (fun env1 hagrees => (hcalls env1 hagrees).mono hN hM)

theorem spareLeft : Receives n (N - 1) M S env (fun n => F (n + 1)) k := by
  cases h with
  | var hmade hknown hb hv hcalls => exact .var hmade hknown hb hv hcalls.spareLeft
  | map hcalls => exact .map (fun env1 hagrees => (hcalls env1 hagrees).spareLeft)

end

/-- A variable stays what it is under definitions of names that are not made. -/
theorem enter {s : Span} {f : Frame} (h : Receives n N M S env F (.var s x))
    (hf : ∀ b ∈ f, ¬ IsMade b.name) : Receives n N M S (f :: env) F (.var s x) := by
  cases h with
  | var hmade hknown hb hv hcalls =>
    refine .var hmade hknown ?_ hv hcalls
    rw [Scheme.find?_cons_of_foreign (fun b hb heq => hf b hb (heq ▸ hmade))]
    exact hb

end Receives

end

section

variable {n N M : Nat} {S : Stage} {env env' : Env} {F : Rest} {x : Nat →
  Eval Ident Unit NamedValue}

/-- What comes after values that are the same meets, at stages that are later than `S` and come
after `T`. -/
def Awaits (N M : Nat) (S T : Stage) (F G : Rest) : Prop :=
  ∀ S' v v', S.Later S' → T.Grown S' → passing.Related S' →
    passing.Same S'.links v v' →
    Meets passing.goal N M (fun n => F n v) S'.left (fun m => G m v') S'.right

theorem Awaits.continues {S' : Stage} (h : Awaits N M S T F G) (hlater : S.Later S')
    (hgrown : T.Grown S') : passing.Continues N M S' F G :=
  fun S'' v v' hlater' hS'' hv =>
    h S'' v v' (hlater.trans hlater') (hgrown.trans hlater'.grown) hS'' hv

/-- Calling a continuation with the value of an expression. -/
theorem meets_callContinuation {y : Ident} {env1 : Env}
    (hT : passing.Related T) (hlater : S.Later T) (hcalls : Calls N M S y e env1 F)
    (h : ∀ T' G, T.Later T' → T'.left = T.left → passing.Related T' →
      Awaits N M S T' F G →
      T'.Meets passing N M x (fun m => evalAs none m env r >>= G m)) :
    T.Meets passing N M x
      (fun m => Eval.callFreely (watched none m) .eager env k ⟨[y], (), e, env1⟩ [r]) := by
  simp only [Eval.callFreely_of_length_eq (c := ⟨[y], (), e, env1⟩)
    (show [r].length = ([y] : List Ident).length from rfl)]
  refine .congr_right (fun m => outcome_declare_bind _ _ _) ?_
  simp only [List.map_cons, List.map_nil, frameAt, Eval.bindEach_cons _ _ Machine.isEager_eager,
    bind_assoc]
  have hsize : T.right.slots.size < (T.newFrameRight [y.name]).right.slots.size := by
    rw [Stage.newFrameRight, Store.size_newFrame]
    exact Nat.lt_succ_self _
  refine h (T.newFrameRight [y.name]) _ (T.later_newFrameRight _) rfl
    (Stage.related_newFrameRight hT _) (fun S' v v' hlater' hgrown hS' hv => ?_)
  have hfree : ∀ i, .slot i T.right.slots.size ∉ S'.links := by
    intro i hl
    rcases hgrown.slots hl with hold | hge
    · exact hT.slot_notMem_right le_rfl i hold
    · omega
  refine .congr_right (fun m => outcome_bind_of_ok _ (outcome_modify _ _)) ?_
  exact hcalls (S'.fillRight T.right.slots.size v') v v' _ (hlater'.setRight hlater.right.size _)
    (Stage.related_fillRight hS' hfree v') hv hlater.right.size
    (S'.slot_fillRight (Nat.lt_of_lt_of_le hsize hgrown.size) v') hfree

/-- A stage whose right store has made another closure. -/
theorem related_closureRight (hS : passing.Related S) (c : Closure Ident Unit) :
    passing.Related { S with right := (S.right.newClosure c).2 } :=
  hS.keepRight (.of_slots rfl) rfl (Nat.le_succ _)

theorem later_closureRight (S : Stage) (c : Closure Ident Unit) :
    S.Later { S with right := (S.right.newClosure c).2 } :=
  Stage.later_right (.of_slots rfl)

/-- Applying a continuation to an expression. -/
theorem meets_apply (hT : passing.Related T)
    (hlater : S.Later T) (hk : Receives n N M S env F k)
    (h : ∀ T' G, T.Later T' → T'.left = T.left → passing.Related T' →
      Awaits N (M - 1) S T' F G →
      T'.Meets passing N (M - 1) x (fun m => evalAs none m env r >>= G m)) :
    T.Meets passing N M x (fun m => evalAs none m env (mkApp k [r])) := by
  simp only [mkApp]
  refine .right rfl ?_
  simp only [evalAs_app]
  cases hk with
  | @var s z y b i e env1 _ _ hb hv hcalls =>
    have hv' := hlater.right.ready hv
    refine .right rfl (.congr_right (fun m => outcome_var_bind hb hv' _) ?_)
    have hcall := meets_callContinuation (k := .var s z) hT hlater
      (hcalls.mono le_rfl (Nat.sub_le M 1)) h
    exact hcall.spareRight
  | @map s y e hcalls =>
    refine .right rfl ?_
    have hcall := meets_callContinuation (k := .map s [y] () e)
      (related_closureRight hT ⟨[y], (), e, env⟩) (hlater.trans (later_closureRight T _))
      ((hcalls env (.refl n env)).mono le_rfl (Nat.sub_le M 1))
      (fun T' G hlater' heq => h T' G ((later_closureRight T _).trans hlater') heq)
    exact hcall.spareRight

/-- One definition of one name. -/
theorem outcome_mkLet (m : Nat) (env : Env) (y : Ident) (r c : NamedExpr) (t : NamedStore) :
    outcome (evalAs none (m + 1) env (mkLet [(y, r)] c)) t =
      outcome (evalAs none m env r >>= fun v =>
        modify (fun t' => t'.setSlot t.slots.size (.ready v)) >>= fun _ =>
          evalAs none m ([⟨y.name, t.slots.size⟩] :: env) c) (t.newFrame [y.name]).2 := by
  rw [mkLet, evalAs_letIn, outcome_declare_bind]
  simp only [defNames, defValues, List.map_cons, List.map_nil, frameAt, LetKind.scope,
    Eval.bindEach_cons _ _ Machine.isEager_eager, bind_assoc]
  rfl

/-- A continuation that is given a name: it is a variable from then on, and stays what it is at
stages that are later than the one where it was given. -/
theorem meets_share {k' c : NamedExpr} {wrap : NamedExpr → NamedExpr} {n' : Nat}
    (hshares : Shares k n k' wrap n') (hT : passing.Related T)
    (hk : Receives n N M S env F k)
    (h : ∀ T' env1 s z, T.Later T' → passing.Related T' → Agrees n env env1 →
      k' = .var s z →
      (∀ S', S.Later S' → T'.right.Kept S'.right → Receives n' N M S' env1 F k') →
      T'.left = T.left → T'.Meets passing N M x (fun m => evalAs none m env1 c)) :
    T.Meets passing N M x (fun m => evalAs none m env (wrap c)) := by
  cases hshares with
  | isVar s z =>
    exact h T env s z (.refl T) hT (.refl n env) rfl (fun S' hlater' _ => hk.later hlater') rfl
  | named hvar =>
    cases hk with
    | var => exact absurd rfl (hvar _ _)
    | @map s y e hcalls =>
      have hlater1 := T.later_newFrameRight [(freshName (n + 1)).name]
      have hsize : T.right.slots.size <
          (T.newFrameRight [(freshName (n + 1)).name]).right.slots.size := by
        rw [Stage.newFrameRight, Store.size_newFrame]
        exact Nat.lt_succ_self _
      refine .right rfl ?_
      refine .congr_right (fun m => outcome_mkLet _ _ _ _ _ _) (.right rfl ?_)
      let T2 : Stage := { T.newFrameRight [(freshName (n + 1)).name] with
        right := ((T.newFrameRight [(freshName (n + 1)).name]).right.newClosure
          ⟨[y], (), e, env⟩).2 }
      have hlater2 : T.Later T2 := hlater1.trans (later_closureRight _ _)
      have hT2 : passing.Related T2 :=
        related_closureRight (Stage.related_newFrameRight hT _) _
      let v : NamedValue := .closure T.right.closures ⟨[y], (), e, env⟩
      have hT3 := Stage.related_fillRight hT2
        (fun i => hT.slot_notMem_right le_rfl i) v
      have hslot := T2.slot_fillRight hsize v
      have hnext := h (T2.fillRight T.right.slots.size v) _ _ _
        (hlater2.setRight le_rfl _) hT3 (.cons (Nat.lt_succ_self n) _ env) rfl
        (fun S' hlater' hkept => .var (isMade_freshName _) (known_freshName le_rfl)
          (find?_cons_of_name (f := []))
          (hkept.ready hslot)
          ((hcalls env (.refl n env)).later hlater')) rfl
      exact hnext.spareRight.mono le_rfl (by omega)

end

end Conversion

end Mapling
