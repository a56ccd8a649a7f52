import Mapling.Proofs.Continuation.Operands

/-! # Calls with a continuation

A converted call passes the continuation as its last argument. On both sides the arguments are
bound to a new frame and the body of the function is evaluated; on the right the frame has one slot
more, which holds the continuation, and the body passes its value on to it. So a call sends what
the body sends, which is known for fewer levels of recursion.

If the function and the arguments are simple, they are evaluated in the same order on both sides.
Otherwise the right evaluates what stands for them, when the left has bound all of them; the slots
of the two frames are linked then. -/

namespace Mapling

variable {V L : Type} {xs ys : List String} {env env' env1 env1' : Env}
  {es es' args' : List NamedExpr} {w : List Link} {vs vs' : List NamedValue} {S S0 : Stage}
  {B i n : Nat} {y : Ident} {ps ps' : List Ident} {b' e f f' : NamedExpr} {F : Rest}
  {os : List (Option NamedValue)} {o : Option NamedValue} {v : NamedValue}

theorem Store.newFrame_append (s : Store V L) (xs ys : List String) :
    (s.newFrame (xs ++ ys)).2 = ((s.newFrame xs).2.newFrame ys).2 := by
  simp only [newFrame, List.length_append, ← Array.replicate_append_replicate, Array.append_assoc]

theorem Store.newFrame_congr (s : Store V L) (h : xs.length = ys.length) :
    (s.newFrame xs).2 = (s.newFrame ys).2 := by
  simp only [newFrame, h]

theorem Eval.bindEach_append {ev : Evaluator Ident Unit} {bs bs1 : Frame} {es1 : List NamedExpr}
    (h : bs.length = es.length) :
    bindEach ev .eager env (bs ++ bs1) (es ++ es1) =
      bindEach ev .eager env bs es >>= fun _ => bindEach ev .eager env bs1 es1 := by
  induction bs generalizing es with
  | nil =>
    cases es with
    | nil => rfl
    | cons => cases h
  | cons b bs ih =>
    cases es with
    | nil => cases h
    | cons e es =>
      simp only [List.cons_append, bindEach_cons _ _ Machine.isEager_eager, bind_assoc,
        ih (Nat.succ.inj h)]

namespace Stage

variable {σ : Scheme} {S S0 : Stage} {a b : Nat}

def newFrameLeft (S : Stage) (xs : List String) : Stage :=
  { S with left := (S.left.newFrame xs).2 }

theorem later_newFrameLeft (S : Stage) (xs : List String) : S.Later (S.newFrameLeft xs) :=
  later_left (Store.kept_newFrame _ _) le_rfl

theorem related_newFrameLeft (h : σ.Related S) (xs : List String) :
    σ.Related (S.newFrameLeft xs) :=
  h.keepLeft (Store.kept_newFrame _ _) rfl le_rfl

theorem Grown.linkRow (h : S0.Grown S) (a : Nat) (hb : S0.right.slots.size ≤ b) (n : Nat) :
    S0.Grown (S.linkRow a b n) := by
  refine ⟨fun l hl => List.mem_append_right _ (h.links hl), h.size, fun hl => ?_⟩
  rcases List.mem_append.mp hl with hrow | hold
  · obtain ⟨k, -, heq⟩ := mem_rowLinks.mp hrow
    simp only [Link.slot.injEq] at heq
    exact .inr (by omega)
  · exact h.slots hold

end Stage

namespace Conversion

open Mapling.Expr

variable {a b : Nat}

theorem sameSlot_row {s t : NamedStore} (hvs : List.Forall₂ (passing.Same w) vs vs')
    (hrow : Row s a vs) (hrow' : Row t b vs') (k : Nat) (hk : k < vs.length) :
    passing.SameSlot w (s.slot (a + k)) (t.slot (b + k)) := by
  induction hvs generalizing a b k with
  | nil => cases hk
  | cons hv _ ih =>
    cases k with
    | zero =>
      rw [Nat.add_zero, Nat.add_zero, hrow.1, hrow'.1]
      exact .ready hv
    | succ k =>
      rw [Nat.add_comm k 1, ← Nat.add_assoc, ← Nat.add_assoc]
      exact ih hrow.2 hrow'.2 k (Nat.lt_of_succ_lt_succ hk)

/-- Rows of slots that hold the same are linked. -/
theorem related_linkRow (hS : passing.Related S)
    (hvs : List.Forall₂ (passing.Same S.links) vs vs') (hrow : Row S.left a vs)
    (hrow' : Row S.right b vs') (ha : a + vs.length ≤ S.left.slots.size)
    (hb : b + vs.length ≤ S.right.slots.size)
    (hleft : ∀ i, a ≤ i → i < a + vs.length → ∀ j, .slot i j ∉ S.links)
    (hright : ∀ j, b ≤ j → ∀ i, .slot i j ∉ S.links) :
    passing.Related (S.linkRow a b vs.length) :=
  Stage.related_row hS ha hb (fun k hk => hleft _ (by omega) (by omega))
    (fun k _ => hright _ (by omega)) (sameSlot_row hvs hrow hrow')

/-! ## The body of a function -/

section

variable {n N M M' : Nat} {S S0 : Stage} {env : Env} {F : Rest} {x : Nat →
  Eval Ident Unit NamedValue}
variable {j : Nat} {w : List Link}

/-- The continuation is bound as the last argument. -/
theorem meets_bindContinuation {k : NamedExpr} {z : String} {Y : Nat → Eval Ident Unit NamedValue}
    (hk : Receives n N M S0 env F k) (hlater : S0.Later S)
    (hS : passing.Related S) (hj : S0.right.slots.size ≤ j)
    (hsize : j < S.right.slots.size) (hfree : ∀ i, .slot i j ∉ S.links)
    (hnext : ∀ S' i y e env1, S0.Later S' → S'.left = S.left → S'.links = S.links →
      passing.Related S' → S'.right.slot j = .ready (.closure i ⟨[y], (), e, env1⟩) →
      Calls N M S0 y e env1 F → S'.Meets passing N M' x Y) :
    S.Meets passing N M' x
      (fun m => Eval.bindEach (watched none m) .eager env [⟨z, j⟩] [k] >>=
        fun _ => Y m) := by
  have hnil : ∀ m, Eval.bindEach (watched none m) .eager env []
      ([] : List NamedExpr) = pure () := fun _ => rfl
  simp only [Eval.bindEach_cons _ _ Machine.isEager_eager, bind_assoc, hnil, pure_bind]
  -- once the value of `k` is at hand it is in the slot
  have hbind : ∀ S1 i y e env1, S0.Later S1 → S1.left = S.left → S1.links = S.links →
      S.right.slots.size ≤ S1.right.slots.size → passing.Related S1 →
        Calls N M S0 y e env1 F →
      Meets passing.goal N (M' - 1) x S.left
        (fun m =>
          modify (fun t => t.setSlot j (.ready (.closure i ⟨[y], (), e, env1⟩))) >>= fun _ =>
          Y (m + 1)) S1.right := by
    intro S1 i y e env1 hlater1 hleft hlinks hsize1 hS1 hcalls
    refine .congr_right (fun m => outcome_bind_of_ok _ (outcome_modify _ _)) ?_
    rw [← hleft]
    exact (hnext (S1.fillRight j (.closure i ⟨[y], (), e, env1⟩)) i y e env1
      (hlater1.setRight hj _) hleft hlinks
      (Stage.related_fillRight hS1 (fun i => by rw [hlinks]; exact hfree i) _)
      (S1.slot_fillRight (by omega) _) hcalls).spareRight
  cases hk with
  | @var s z y b i e env1 _ _ hb hv hcalls =>
    have hv' := hlater.right.ready hv
    refine .right rfl (.congr_right (fun m => outcome_var_bind hb hv' _) ?_)
    exact hbind S i y e env1 hlater rfl rfl le_rfl hS hcalls
  | @map s y e hcalls =>
    refine .right rfl ?_
    exact hbind { S with right := (S.right.newClosure ⟨[y], (), e, env⟩).2 } S.right.closures y
      e env (hlater.trans (later_closureRight S _)) rfl rfl le_rfl (related_closureRight hS _)
      (hcalls env (.refl n env))

/-- Variables that are bound to linked slots. -/
theorem tracksIn_var {x : Ident} (b b' : Binding) (hb : env.find? x.name = some b)
    (hb' : env'.find? y.name = some b') (hl : .slot b.slot b'.slot ∈ w) :
    passing.TracksIn B w env env' (mkVar x) (mkVar y) := by
  refine .of_step (fun N M S F G _ hS hw hnext => ?_)
  simp only [mkVar, evalAs_var, hb, hb']
  exact Scheme.meets_force hS _ _ (hw hl) (fun v v' _ _ hv => hnext.now hS hv)

theorem freshName_inj : (freshName i).name = (freshName j).name ↔ i = j :=
  ⟨freshName_injective, fun h => by rw [h]⟩

/-- The parameters of the function that a primitive becomes, before and after conversion. -/
theorem tracksIn_primParams (B : Nat) (env env' : Env) (j : Nat) (p : Prim)
    (k : Nat) (hrow : Stage.rowLinks a b (primParams p).length ⊆ w) :
    List.Forall₂ (passing.TracksIn B w (frameAt a ((primParams p).map Ident.name) :: env)
      ((frameAt b ((namesAfter k p.parameters).map Ident.name) ++
        [⟨(freshName (k + p.parameters + 1)).name, j⟩]) :: env'))
      ((primParams p).map mkVar) ((namesAfter k p.parameters).map mkVar) := by
  by_cases hcons : p = .cons
  · subst hcons
    refine .cons (tracksIn_var ⟨(freshName 1).name, a⟩ ⟨(freshName (k + 1)).name, b⟩
      ?_ ?_ (hrow (Stage.mem_rowLinks.mpr ⟨0, by decide, rfl⟩))) (.cons (tracksIn_var
      ⟨(freshName 2).name, a + 1⟩ ⟨(freshName (k + 2)).name, b + 1⟩ ?_ ?_
      (hrow (Stage.mem_rowLinks.mpr ⟨1, by decide, rfl⟩))) .nil)
    all_goals simp [Env.find?, frameAt, primParams, namesAfter, Prim.parameters, freshName_inj]
  · have hone := Prim.parameters_of_ne_cons hcons
    rw [primParams_of_ne_cons hcons] at hrow ⊢
    rw [hone]
    refine .cons (tracksIn_var ⟨(freshName 1).name, a⟩ ⟨(freshName (k + 1)).name, b⟩
      ?_ ?_ (hrow (Stage.mem_rowLinks.mpr ⟨0, by decide, rfl⟩))) .nil
    all_goals simp [Env.find?, frameAt, namesAfter, freshName_inj]

/-- The body of the function that a primitive becomes, before and after conversion. -/
theorem tracksIn_primBody (p : Prim) (k : Nat)
    (hrow : Stage.rowLinks a b (primParams p).length ⊆ w) :
    passing.TracksIn B w (frameAt a ((primParams p).map Ident.name) :: env)
      ((frameAt b ((namesAfter k p.parameters).map Ident.name) ++
        [⟨(freshName (k + p.parameters + 1)).name, j⟩]) :: env') (primBody p)
      (primResult p ((namesAfter k p.parameters).map mkVar)) := by
  have hvars := tracksIn_primParams B env env' j p k hrow
  by_cases harity : p = .arity
  · subst harity
    rw [primResult, if_pos rfl]
    exact tracksIn_arityCall hvars _ _ _ _ _ _
  · rw [primResult, if_neg harity]
    exact .primApp _ _ _ _ (fun hp => absurd hp harity) hvars

/-- The body of a function sends its value to the continuation in the last slot of the frame. -/
theorem meets_body {b : NamedExpr}
    (hbodies : ∀ e : NamedExpr, e.Original → SendsAlways (N + M) e)
    (hcode : Passing ps b ps' b') (hlater : S0.Later S) (hS : passing.Related S)
    (henv : passing.Envs S.links env1 env1')
    (hrow : Stage.rowLinks a j ps.length ⊆ S.links)
    (hslot : S.right.slot (j + ps.length) = .ready (.closure i ⟨[y], (), e, env⟩))
    (hcalls : Calls N M S0 y e env F) :
    S.Meets passing N M
      (fun n => evalAs none n (frameAt a (ps.map Ident.name) :: env1) b >>= F n)
      (fun m => evalAs none m (frameAt j (ps'.map Ident.name) :: env1') b') := by
  have hframe : ∀ (ps : List Ident) (z : Ident), frameAt j ((ps ++ [z]).map Ident.name) =
      frameAt j (ps.map Ident.name) ++ [⟨z.name, j + ps.length⟩] := by
    intro ps z
    rw [List.map_append, frameAt_append, List.length_map]
    rfl
  cases hcode with
  | @map _ e c n n' hnames hcount he hc =>
    rw [hframe]
    refine hbodies e he _ _ _ _ hc N M S _ _ F le_rfl hS ?_ ?_
    · refine Scheme.Envs.cons (linked_frameAt ?_) (fun c hc => ?_) henv
      · rw [List.length_map]
        exact hrow
      · rw [List.mem_singleton.mp hc]
        exact not_not_intro (isMade_freshName _)
    · exact .var (isMade_freshName _) (known_freshName le_rfl) find?_cons_of_name hslot
        (hcalls.later hlater)
  | prim p n =>
    rw [length_primParams] at hslot
    rw [hframe, length_namesAfter]
    have hk : Receives (n + p.parameters + 1) N M S
        ((frameAt j ((namesAfter n p.parameters).map Ident.name) ++
          [⟨(freshName (n + p.parameters + 1)).name, j + p.parameters⟩]) :: env1') F
        (mkVar (freshName (n + p.parameters + 1))) :=
      .var (isMade_freshName _) (known_freshName le_rfl) find?_cons_of_name hslot
        (hcalls.later hlater)
    refine meets_apply hS (.refl S) hk (fun S' G hlater' _ hS' hnext => ?_)
    exact tracksIn_primBody p n hrow N (M - 1) S' F G le_rfl hS' hlater'.grows
      (hnext.continues hlater' (Stage.Later.refl S').grown)

end

/-! ## Calls of simple functions with simple arguments -/

/-- The last parameter of a converted function is for the continuation. -/
theorem Passing.split {b : NamedExpr} (h : Passing ps b ps' b') :
    ∃ qs z, ps' = qs ++ [z] ∧ qs.length = ps.length := by
  cases h with
  | map => exact ⟨_, _, rfl, rfl⟩
  | prim p n => exact ⟨_, _, rfl, by rw [length_namesAfter, length_primParams]⟩

/-- Frames for the arguments of a function and of what it is converted to. -/
theorem forall₂_frameAt (hlen : ys.length = xs.length) (h : Stage.rowLinks a b xs.length ⊆ w) :
    List.Forall₂ (fun b b' : Binding => .slot b.slot b'.slot ∈ w) (frameAt a xs)
      (frameAt b ys) := by
  induction xs generalizing a b ys with
  | nil =>
    rw [List.length_eq_zero_iff.mp hlen]
    exact .nil
  | cons x xs ih =>
    cases ys with
    | nil => cases hlen
    | cons y ys =>
      rw [List.length_cons, Stage.rowLinks, List.cons_subset] at h
      exact .cons h.1 (ih (Nat.succ.inj hlen) h.2)

/-- All bodies send their values when fewer levels of recursion are followed. -/
def BodiesSend (B : Nat) : Prop :=
  ∀ K, K < B → ∀ e : NamedExpr, e.Original → SendsAlways K e

section

variable {n n1 n2 N M B : Nat} {k : NamedExpr}

/-- Both sides call a function with arguments that are evaluated in the same order. -/
theorem meets_callPassing {b : NamedExpr} (hbodies : BodiesSend B) (hB : N + M < B)
    (hcode : Passing ps b ps' b') (hk : Receives n N M S0 env' F k) (hlater : S0.Later S)
    (hS : passing.Related S) (henv : passing.Envs S.links env env')
    (henv1 : passing.Envs S.links env1 env1')
    (hes : List.Forall₂ (passing.Tracks (N + M)) es es') (f f' : NamedExpr) :
    S.Meets passing N M
      (fun n => Eval.callFreely (watched none n) .eager env f ⟨ps, (), b, env1⟩ es >>= F n)
      (fun m => Eval.callFreely (watched none m) .eager env' f' ⟨ps', (), b', env1'⟩
        (es' ++ [k])) := by
  obtain ⟨qs, z, rfl, hqs⟩ := hcode.split
  have hlengths : (es' ++ [k]).length = (qs ++ [z]).length ↔ es.length = ps.length := by
    rw [List.length_append, List.length_append, hqs, hes.length_eq]
    simp
  by_cases hlength : es.length = ps.length
  · simp only [Eval.callFreely_of_length_eq (c := ⟨ps, (), b, env1⟩) hlength,
      Eval.callFreely_of_length_eq (c := ⟨qs ++ [z], (), b', env1'⟩) (hlengths.mpr hlength),
      bind_assoc]
    refine .congr_left (fun n => outcome_declare_bind _ _ _) (.congr_right
      (fun m => outcome_declare_bind _ _ _) ?_)
    -- the frame on the right has one slot more
    let T := (S.newFrame (ps.map Ident.name)).newFrameRight [z.name]
    have hright : (S.right.newFrame ((qs ++ [z]).map Ident.name)).2 = T.right := by
      have hnames : (qs.map Ident.name).length = (ps.map Ident.name).length := by simp [hqs]
      rw [List.map_append, Store.newFrame_append, Store.newFrame_congr S.right hnames]
      rfl
    have hlaterT : S.Later T := (S.later_newFrame _).trans (Stage.later_newFrameRight _ _)
    have hT : passing.Related T :=
      Stage.related_newFrameRight (Stage.related_newFrame hS _) _
    have hlinks : T.links = Stage.rowLinks S.left.slots.size S.right.slots.size ps.length ++
        S.links := by
      show Stage.rowLinks _ _ (ps.map Ident.name).length ++ S.links = _
      rw [List.length_map]
    have hrow : Stage.rowLinks S.left.slots.size S.right.slots.size ps.length ⊆ T.links := by
      rw [hlinks]
      exact List.subset_append_left _ _
    have hframes : List.Forall₂ (fun b b' : Binding => .slot b.slot b'.slot ∈ T.links)
        (frameAt S.left.slots.size (ps.map Ident.name))
        (frameAt S.right.slots.size (qs.map Ident.name)) :=
      forall₂_frameAt (by simp [hqs]) (by rwa [List.length_map])
    have hsize : T.right.slots.size = S.right.slots.size + ps.length + 1 := by
      rw [← hright, Store.size_newFrame, List.length_map, List.length_append, hqs, Nat.add_assoc]
      rfl
    have hfree : ∀ i, .slot i (S.right.slots.size + ps.length) ∉ T.links := by
      intro i hl
      rw [hlinks] at hl
      rcases List.mem_append.mp hl with hrow | hold
      · obtain ⟨k, hk, heq⟩ := Stage.mem_rowLinks.mp hrow
        simp only [Link.slot.injEq] at heq
        omega
      · exact hS.slot_notMem_right (Nat.le_add_right _ _) i hold
    have hsplit : ∀ m, Eval.bindEach (watched none m) .eager env'
        (frameAt S.right.slots.size ((qs ++ [z]).map Ident.name)) (es' ++ [k]) =
        Eval.bindEach (watched none m) .eager env'
          (frameAt S.right.slots.size (qs.map Ident.name)) es' >>= fun _ =>
        Eval.bindEach (watched none m) .eager env'
          [⟨z.name, S.right.slots.size + ps.length⟩] [k] := by
      intro m
      rw [List.map_append, frameAt_append, List.length_map, hqs, Eval.bindEach_append]
      · rfl
      · rw [length_frameAt, List.length_map, hqs, ← hlength, hes.length_eq]
    simp only [hsplit, bind_assoc]
    rw [hright]
    refine Scheme.meets_bindEach hes le_rfl hframes
      (fun b hb => slot_ge_of_mem_frameAt hb) (fun b hb => slot_ge_of_mem_frameAt hb) hlaterT hT
      (henv.mono hlaterT.grows) (fun S' hlater' hgrown hS' => ?_)
    have hsize' := hgrown.size
    have hfree' : ∀ i, .slot i (S.right.slots.size + ps.length) ∉ S'.links := by
      intro i hl
      rcases hgrown.slots hl with hold | hge
      · exact hfree i hold
      · omega
    refine meets_bindContinuation hk (hlater.trans hlater') hS'
      (Nat.le_trans hlater.right.size (Nat.le_add_right _ _)) (by omega) hfree' ?_
    intro S'' i y e env2 hlater'' hleft'' hlinks'' hS'' hslot hcalls
    refine meets_body (fun e he => hbodies _ hB e he) hcode hlater'' hS'' ?_ ?_ hslot hcalls
    · rw [hlinks'']
      exact henv1.mono hlater'.grows
    · rw [hlinks'']
      exact fun l hl => hgrown.links (hrow hl)
  · simp only [Eval.callFreely_of_length_ne (c := ⟨ps, (), b, env1⟩) hlength,
      Eval.callFreely_of_length_ne (c := ⟨qs ++ [z], (), b', env1'⟩)
        (fun heq => hlength (hlengths.mp heq))]
    exact .of_both_fail ((Fails.throw _).bind _) (Fails.throw _)

/-- A call of a simple function with simple arguments. -/
theorem sends_call (hbodies : BodiesSend B) {s : Span} {args : List NamedExpr}
    (hf : ¬ f.isPrim) (hs : allSimple (f :: args)) (he : (Expr.app s f args : NamedExpr).Original)
    (hr : Reshapes f n f' n1) (hrs : ReshapesAll args n1 args' n2) :
    Sends B n k (.app s f args) (.app s f' (args' ++ [k])) := by
  intro N M S env env' F hB hS henv hk
  simp only [allSimple, Bool.and_eq_true] at hs
  by_cases hzero : N + M = 0
  · rintro (⟨n, hn, -⟩ | ⟨m, hm, -⟩) <;> omega
  refine .left rfl (.right rfl ?_)
  simp only [expand, hf, Bool.false_eq_true, if_false, evalAs_app, bind_assoc]
  refine tracks_of_reshapes hr hs.1 he.1 (N - 1) (M - 1) S env env' _ _ le_rfl hS henv
    (fun S' v v' hlater hS' hv => ?_)
  cases hv with
  | closure _ hcode hclosed =>
    exact meets_callPassing hbodies (by omega) hcode
      (hk.spareLeft.mono le_rfl (Nat.sub_le M 1)) hlater hS' (henv.mono hlater.grows)
      hclosed (tracksAll_of_reshapes hrs hs.2 he.2) f.expand f'
  | prim _ hcode => exact hcode.elim
  | _ => exact .of_both_fail ((Fails.notAFunction _ _).bind _) (Fails.notAFunction _ _)

end

/-! ## Calls with stand-ins -/

theorem allSimple_standIns (n : Nat) (es : List NamedExpr) : allSimple (standIns n es) := by
  induction es generalizing n with
  | nil => rfl
  | cons e es ih => simp [standIns, allSimple, isSimple_standIn, ih]

theorem not_isPrim_standIn (hf : ¬ f.isPrim) (n : Nat) : ¬ (standIn n f).isPrim := by
  unfold standIn
  split
  · exact hf
  · simp [mkVar, isPrim]

theorem ReshapesAll.length_eq {n' : Nat} (h : ReshapesAll es n es' n') :
    es'.length = es.length := by
  induction es generalizing n es' with
  | nil => cases h; rfl
  | cons e es ih =>
    cases h with
    | cons _ hrs => rw [List.length_cons, List.length_cons, ih hrs]

theorem StandsAll.length_eq {lo hi : Nat} (h : StandsAll n S env lo hi es os) :
    os.length = es.length := by
  induction h with
  | nil => rfl
  | cons _ _ _ ih => rw [List.length_cons, List.length_cons, ih]

section

variable {n n1 n2 n3 lo mid hi N M B : Nat} {k : NamedExpr} {T S : Stage} {env env' : Env}
  {x : Nat → Eval Ident Unit NamedValue}

/-- A function and arguments that are stood for can be called. -/
def Callable (o : Option NamedValue) (os : List (Option NamedValue)) (a : Nat) : Prop :=
  ∃ (i : Nat) (c : Closure Ident Unit) (vs : List NamedValue), o = some (.closure i c) ∧
    os = vs.map some ∧ a = c.params.length

variable {args : List NamedExpr} {f c : NamedExpr} {s : Span}

/-- What stands for a function and its arguments is evaluated and bound, but for the
continuation. -/
theorem meets_callStandIns (hT : passing.Related T)
    (hstf : Stands n lo mid T env f o) (hmid : lo ≤ mid)
    (hall : StandsAll n T env mid hi args os) (hrf : Reshapes f n1 f' n2)
    (hrs : ReshapesAll args n2 args' n3)
    (hnext : ∀ S' i ps b env1 ps' b' env1' z j vs vs', o = some (.closure i ⟨ps, (), b, env1⟩) →
      os = vs.map some → args.length = ps.length → Passing ps b ps' b' →
      Stage.Within lo hi T S' → passing.Related S' →
        passing.Envs S'.links env1 env1' →
      List.Forall₂ (passing.Same S'.links) vs vs' → T.right.slots.size ≤ j →
      j + ps.length < S'.right.slots.size → Row S'.right j vs' →
      (∀ k, j ≤ k → ∀ i, .slot i k ∉ S'.links) →
      S'.Meets passing N (M - 1) x
        (fun m => Eval.bindEach (watched none m) .eager env [⟨z, j + ps.length⟩] [k] >>=
          fun _ => evalAs none m (frameAt j (ps'.map Ident.name) :: env1') b'))
    (hdead : ¬ Callable o os args.length → Fails x T.left) :
    T.Meets passing N M x
      (fun m => evalAs none m env (.app s f' (args' ++ [k]))) := by
  have hargs' : args'.length = args.length := hrs.length_eq
  refine .right rfl ?_
  simp only [evalAs_app]
  refine meets_standIn hstf hmid hrf le_rfl (.refl lo T) hT
    (fun S1 v v' ho hT1 hkept hgrows hS1 hv => ?_) (fun ho => hdead ?_)
  · rw [Stage.Meets, hT1.left]
    cases hv with
    | @closure i i' ps ps' b b' env1 env1' _ hcode hclosed =>
      obtain ⟨qs, z, rfl, hqs⟩ := hcode.split
      have hlengths : (args' ++ [k]).length = (qs ++ [z]).length ↔ args.length = ps.length := by
        rw [List.length_append, List.length_append, hqs, hargs']
        simp
      by_cases hlength : args.length = ps.length
      · simp only [Eval.applyAs, Eval.callFreely_of_length_eq (c := ⟨qs ++ [z], (), b', env1'⟩)
          (hlengths.mpr hlength)]
        refine .congr_right (fun m => outcome_declare_bind _ _ _) ?_
        have hsplit : ∀ m, Eval.bindEach (watched none m) .eager env
            (frameAt S1.right.slots.size ((qs ++ [z]).map Ident.name)) (args' ++ [k]) =
            Eval.bindEach (watched none m) .eager env
              (frameAt S1.right.slots.size (qs.map Ident.name)) args' >>= fun _ =>
            Eval.bindEach (watched none m) .eager env
              [⟨z.name, S1.right.slots.size + ps.length⟩] [k] := by
          intro m
          rw [List.map_append, frameAt_append, List.length_map, hqs, Eval.bindEach_append]
          · rfl
          · rw [length_frameAt, List.length_map, hqs, ← hlength, hargs']
        simp only [hsplit, bind_assoc]
        have hsize : (S1.newFrameRight ((qs ++ [z]).map Ident.name)).right.slots.size =
            S1.right.slots.size + ps.length + 1 := by
          rw [Stage.newFrameRight, Store.size_newFrame, List.length_map, List.length_append, hqs,
            Nat.add_assoc]
          rfl
        rw [← hT1.left]
        refine meets_bindStandIns hall hrs (by simp [hqs, hlength]) hkept.size ?_
          (fun k hk => hT.slot_notMem_right (Nat.le_trans hkept.size hk)) hmid
          (hT1.newFrameRight ((qs ++ [z]).map Ident.name)) (Stage.related_newFrameRight hS1 _)
          (fun S' vs vs' hos hT' hgrows' hsize' hS' hvs hrow hbelow => ?_) (fun hnone => ?_)
        · rw [hsize, List.length_map, hqs]
          omega
        · refine hnext S' i ps b env1 (qs ++ [z]) b' env1' z.name S1.right.slots.size vs vs' ho hos
            hlength hcode hT' hS' (hclosed.mono hgrows') hvs hkept.size (by omega) hrow ?_
          exact fun k hk i hl => hT.slot_notMem_right (Nat.le_trans hkept.size hk) i (hT'.slots hl)
        · show Fails x S1.left
          rw [hT1.left]
          refine hdead ?_
          rintro ⟨_, _, vs, _, rfl, _⟩
          simp at hnone
      · simp only [Eval.applyAs, Eval.callFreely_of_length_ne (c := ⟨qs ++ [z], (), b', env1'⟩)
          (fun heq => hlength (hlengths.mp heq))]
        refine .of_both_fail (hdead ?_) (Fails.throw _)
        rintro ⟨_, _, _, heq, -, hlen⟩
        cases ho.symm.trans heq
        exact hlength hlen
    | prim _ hcode => exact hcode.elim
    | _ =>
      refine .of_both_fail (hdead ?_) (Fails.notAFunction _ _)
      rintro ⟨_, _, _, heq, -, -⟩
      cases ho.symm.trans heq
  · rintro ⟨_, _, _, heq, -, -⟩
    cases ho.symm.trans heq

/-- What cannot be called is not called. -/
theorem never_callStandIns (hT : passing.Related T)
    (hstf : Stands n lo mid T env f o) (hmid : lo ≤ mid)
    (hall : StandsAll n T env mid hi args os) (hrf : Reshapes f n1 f' n2)
    (hrs : ReshapesAll args n2 args' n3) (hbad : ¬ Callable o os args.length) (m : Nat) :
    ¬ Succeeds (evalAs none m env (.app s f' (args' ++ [k]))) T.right := by
  have hmeets : T.Meets passing 0 (m + 1) failure
      (fun m => evalAs none m env (.app s f' (args' ++ [k]))) := by
    refine meets_callStandIns hT hstf hmid hall hrf hrs ?_ (fun _ => fails_failure _)
    intro S' i ps b env1 ps' b' env1' z j vs vs' ho hos hlength
    exact absurd ⟨i, _, vs, ho, hos, hlength⟩ hbad
  exact not_succeeds_of_meets hmeets (Nat.lt_succ_self m)

/-- A call of what stands for a function with what stands for its arguments. -/
theorem Converts.callStandIns (hf : ¬ f.isPrim)
    (h : Converts k (.app s (standIn n f) (standIns n1 args)) n2 c n3) :
    ∃ f' args' n', c = .app s f' (args' ++ [k]) ∧ Reshapes (standIn n f) n2 f' n' ∧
      ReshapesAll (standIns n1 args) n' args' n3 := by
  have hprim := not_isPrim_standIn hf n
  cases h with
  | simple hs _ => simp [isSimple, hprim] at hs
  | call _ _ hr hrs => exact ⟨_, _, _, rfl, hr, hrs⟩
  | operands hs he _ =>
    cases he with
    | primCall hf' => exact absurd hf' hprim
    | call _ => simp [allSimple, isSimple_standIn, allSimple_standIns] at hs

/-- No primitive is stood for: they are closures after expansion. -/
theorem Stands.ne_prim (h : Stands n lo hi S env e (some v)) (p : Prim) : v ≠ .prim p := by
  rintro rfl
  cases h with
  | read _ _ _ hv =>
    cases hv with
    | prim _ hcode => exact hcode.elim

/-- What cannot be called fails. -/
theorem fails_applyAs {s : NamedStore} (hprim : ∀ p, v ≠ .prim p)
    (hbad : ∀ os, ¬ Callable (some v) os es.length) :
    Fails (fun n => Eval.applyAs none n env f es v) s := by
  cases v with
  | closure i c =>
    have hlength : es.length ≠ c.arity := fun heq => hbad [] ⟨i, c, [], rfl, rfl, heq⟩
    simp only [Eval.applyAs, Eval.callFreely_of_length_ne hlength]
    exact Fails.throw _
  | prim p => exact absurd rfl (hprim p)
  | _ => exact Fails.notAFunction _ _

/-- The arguments of a function are bound on the left, and what stands for them on the right. -/
theorem meets_callOperands {env2 : Env} {g b : NamedExpr}
    (hbodies : BodiesSend B) (hB : N + M ≤ B)
    (hB' : N + (M - 1) < B)
    (h : Pending B k (.app s g (standIns n args)) S0 S env env1 n args n2 c)
    (hk : Receives n1 N M S0 env1 F k) (hn1 : n1 ≤ n)
    (hst : Stands n S0.left.closures S.left.closures S env1 g
      (some (.closure i ⟨ps, (), b, env2⟩))) (hlength : args.length = ps.length)
    (hleaf : ∀ n0 c0 n0', Converts k (.app s g (standIns n args)) n0 c0 n0' →
      ∃ f' args' n', c0 = .app s f' (args' ++ [k]) ∧ Reshapes g n0 f' n' ∧
        ReshapesAll (standIns n args) n' args' n0') :
    S.Meets passing N M
      (fun n => Eval.callFreely (watched none n) .eager env f ⟨ps, (), b, env2⟩
        (expandAll args) >>= F n) (fun m => evalAs none m env1 c) := by
  have hlength' : (expandAll args).length = ps.length := by rw [length_expandAll, hlength]
  simp only [Eval.callFreely_of_length_eq (c := ⟨ps, (), b, env2⟩) hlength', bind_assoc]
  refine .congr_left (fun n => outcome_declare_bind _ _ _) ?_
  have hsize : (S.newFrameLeft (ps.map Ident.name)).left.slots.size =
      S.left.slots.size + ps.length := by
    rw [Stage.newFrameLeft, Store.size_newFrame, List.length_map]
  have hlater0 := S.later_newFrameLeft (ps.map Ident.name)
  have honward0 := hlater0.onward
  have hlater := h.later
  have hS := h.related
  refine meets_bindOperands
    { h with later := hlater0, related := Stage.related_newFrameLeft hS _, envs := h.envs }
    hB (by rw [List.length_map, hlength]) le_rfl
    (by rw [hsize, List.length_map]) (fun i hi _ j => hS.slot_notMem_left hi j) ?_ ?_
  · rintro S1 env3 vs n0 c0 ⟨hlater1, honward, hS1, hagrees, hall, hn0, n0', hc0⟩ hrow hbelow
    obtain ⟨f', args', n', rfl, hrf, hrs⟩ := hleaf n0 c0 n0' hc0
    have hvs : vs.length = ps.length := by
      have := hall.length_eq
      rwa [List.length_map, length_standIns, hlength] at this
    refine meets_callStandIns hS1 ((hst.onward (honward0.trans honward) hagrees).known hn0)
      hlater.made hall hrf hrs ?_ (fun hbad => absurd ⟨i, _, vs, rfl, rfl, ?_⟩ hbad)
    · intro S2 i' ps2 b2 env4 ps' b' env4' z j vs2 vs' ho hos _ hcode hW hS2 hclosed hvs' hj hsize2
        hrow' hfree
      cases ho
      obtain rfl : vs = vs2 := List.map_injective_iff.mpr (Option.some_injective _) hos
      have hlater2 : S0.Later S2 := hW.later (hlater.trans hlater1) le_rfl
      have hlater3 : S0.Later (S2.linkRow S.left.slots.size j vs.length) :=
        hlater2.linkRow hlater.left.size
          (Nat.le_trans (hlater.trans hlater1).right.size hj) vs.length
      have hsizeL := honward.left
      rw [hsize] at hsizeL
      -- the frames have the same in their slots, which are linked now
      have hS3 : passing.Related (S2.linkRow S.left.slots.size j vs.length) := by
        refine related_linkRow hS2 hvs' (by rw [hW.left]; exact hrow) hrow' ?_ (by omega) ?_ hfree
        · rw [hW.left]
          omega
        · intro i hi hlt j hl
          rcases honward.slots (hW.slots hl) with hold | hge
          · exact hS.slot_notMem_left hi j hold
          · omega
      have hfree3 : ∀ i, .slot i (j + ps.length) ∉
          (S2.linkRow S.left.slots.size j vs.length).links := by
        intro i hl
        rcases List.mem_append.mp hl with hnew | hold
        · obtain ⟨q, hq, heq⟩ := Stage.mem_rowLinks.mp hnew
          simp only [Link.slot.injEq] at heq
          omega
        · exact hfree _ (Nat.le_add_right _ _) i hold
      refine meets_bindContinuation (S := S2.linkRow S.left.slots.size j vs.length)
        (((hk.known hn1).agrees hagrees).mono le_rfl (Nat.sub_le M 1)) hlater3 hS3
        (Nat.le_trans (hlater.trans hlater1).right.size (by omega)) hsize2 hfree3 ?_
      intro S4 i2 y e env5 hlater4 hleft4 hlinks4 hS4 hslot hcalls
      refine meets_body (fun e he => hbodies _ hB' e he) hcode hlater4 hS4 ?_ ?_ hslot hcalls
      · rw [hlinks4]
        exact hclosed.mono (List.subset_append_right _ _)
      · rw [hlinks4, ← hvs]
        exact List.subset_append_left _ _
    · rw [length_standIns, hlength]
  · rintro S1 env3 os n0 c0 ⟨hlater1, honward, hS1, hagrees, hall, hn0, n0', hc0⟩ hnone m _
    obtain ⟨f', args', n', rfl, hrf, hrs⟩ := hleaf n0 c0 n0' hc0
    refine never_callStandIns hS1 ((hst.onward (honward0.trans honward) hagrees).known hn0)
      hlater.made hall hrf hrs ?_ m
    rintro ⟨_, _, vs, -, rfl, -⟩
    simp at hnone

/-- A call whose function or arguments are not simple. -/
theorem sends_operands (hbodies : BodiesSend B) (hf : ¬ f.isPrim)
    (he : (Expr.app s f args : NamedExpr).Original)
    (hsend : ∀ e ∈ f :: args, ¬ e.isSimple → SendsAlways B e)
    (hc : Chains k (temporaries n (f :: args))
      (.app s (standIn n f) (standIns (countAfter n f) args))
      (n + (temporaries n (f :: args)).length) c n1) : Sends B n k (.app s f args) c := by
  intro N M S env env' F hB hS henv hk
  by_cases hzero : N + M = 0
  · rintro (⟨n, hn, -⟩ | ⟨m, hm, -⟩) <;> omega
  refine .left rfl ?_
  simp only [expand, hf, Bool.false_eq_true, if_false, evalAs_app, bind_assoc]
  -- if the function cannot be called, the arguments are evaluated on the right for nothing
  have hdead : ∀ {S1 env1 o n1 c}, Passed S env' n f S1 env1 o →
      Pending B k (.app s (standIn n f) (standIns (countAfter n f) args)) S S1 env env1
        (countAfter n f) args n1 c → (∀ os, ¬ Callable o os args.length) →
      ∀ m, m < M → ¬ Succeeds (evalAs none m env1 c) S1.right := by
    intro S1 env1 o n1 c h1 hrest hbad
    refine chains_never hrest (by omega) ?_
    rintro S2 env2 os n0 c0 ⟨-, honward, hS2, hagrees2, hall, hn0, n0', hc0⟩ - m _
    obtain ⟨f', args', n', rfl, hrf, hrs⟩ := hc0.callStandIns hf
    refine never_callStandIns hS2 ((h1.stands.onward honward hagrees2).known hn0) h1.later.made hall
      hrf hrs ?_ m
    rw [length_standIns]
    exact hbad os
  refine meets_operand ⟨hsend, he, ⟨n1, hc⟩, le_rfl, .refl S, hS, henv⟩ (by omega) ?_ ?_
  · intro S1 _ hright h1 hrest
    rw [← hright]
    refine hdead h1 hrest ?_
    rintro os ⟨_, _, _, heq, -, -⟩
    cases heq
  · intro S1 env1 v n1 c h1 hrest
    by_cases hcallable : ∃ i ps b env2, v = .closure i ⟨ps, (), b, env2⟩ ∧ args.length = ps.length
    · obtain ⟨i, ps, b, env2, rfl, hlength⟩ := hcallable
      exact meets_callOperands hbodies (by omega) (by omega) hrest (hk.spareLeft.agrees h1.agrees)
        (le_countAfter n f) h1.stands hlength (fun n0 c0 n0' hc0 => hc0.callStandIns hf)
    · have hbad : ∀ os, ¬ Callable (some v) os args.length := by
        rintro os ⟨i, ⟨ps, ⟨⟩, b, env2⟩, _, heq, -, hlength⟩
        cases heq
        exact hcallable ⟨i, ps, b, env2, rfl, hlength⟩
      refine .of_fails (Fails.bind (fails_applyAs h1.stands.ne_prim ?_) _) (hdead h1 hrest hbad)
      rw [length_expandAll]
      exact hbad

end

end Conversion

end Mapling
