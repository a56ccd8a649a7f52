import Mapling.Proofs.Continuation.Operators

/-! # Converted expressions send their values

Every expression sends its value to the continuation that it is converted with
(`sendsAlways`). The remaining forms are conditionals, definitions and blocks. A continuation that
is used in two branches or under definitions is shared first, so it is a variable there and is not
captured.

A definition whose value calls a function becomes the continuation of that call, with the defined
name as its parameter. The left has declared the frame of the definition before it evaluates the
value, the right declares it when the continuation is called; the slots are linked then.

The induction is on the levels of recursion that are followed, which a call of a function lowers,
and for a given number of them on the weight of the expression. -/

namespace Mapling

variable {t a : NamedExpr} {os : List (Option NamedValue)} {x : Nat → Eval Ident Unit NamedValue}
  {Y : Nat → Frame → Eval Ident Unit NamedValue} {es : List NamedExpr}

namespace Conversion

open Mapling.Expr

section

variable {n n1 n2 n3 n4 N M B : Nat} {k k' e c : NamedExpr} {s : Span}
  {wrap : NamedExpr → NamedExpr}

/-- A simple expression. -/
theorem sends_simple {r : NamedExpr} (hs : e.isSimple) (he : e.Original) (hr : Reshapes e n r n1) :
    Sends B n k e (mkApp k [r]) := by
  intro N M S env env' F hB hS henv hk
  refine meets_apply hS (.refl S) hk (fun S' G hlater _ hS' hnext => ?_)
  exact tracks_of_reshapes hr hs he N (M - 1) S' env env' F G le_rfl hS'
    (henv.mono hlater.grows) (hnext.continues hlater (Stage.Later.refl S').grown)

/-! ## Conditionals -/

variable {ds ds' defs : List (Ident × NamedExpr)} {b body : NamedExpr} {env : Env} {lo hi : Nat}
  {S T : Stage}

/-- A conditional with a simple test. -/
theorem sends_cond {t' a' b' : NamedExpr} (ht : t.isSimple) (he : t.Original)
    (hr : Reshapes t n t' n1) (hshares : Shares k n1 k' wrap n2) (ha : Sends B n2 k' a a')
    (hb : Sends B n3 k' b b') (hn : n2 ≤ n3) :
    Sends B n k (.cond s t a b) (wrap (.cond s t' a' b')) := by
  intro N M S env env' F hB hS henv hk
  refine meets_share hshares hS (hk.known hr.le) ?_
  intro S1 env1 _ _ hlater1 hS1 hagrees _ hk' _
  refine .left rfl (.right rfl ?_)
  simp only [expand, evalAs_cond, bind_assoc, Eval.branch_bind]
  have henv1 := (hagrees.mono hr.le).envs (henv.mono hlater1.grows)
  refine tracks_of_reshapes hr ht he (N - 1) (M - 1) S1 env env1 _ _ le_rfl hS1 henv1
    (fun S2 v v' hlater2 hS2 hv => ?_)
  have hk2 := (hk' S2 (hlater1.trans hlater2) hlater2.right).spareLeft.mono le_rfl
    (Nat.sub_le M 1)
  exact Scheme.meets_branch hv
    (ha (N - 1) (M - 1) S2 env env1 _ (by omega) hS2 (henv1.mono hlater2.grows) hk2)
    (hb (N - 1) (M - 1) S2 env env1 _ (by omega) hS2 (henv1.mono hlater2.grows) (hk2.known hn))

/-- A variable that stands for an operand holds its value. -/
theorem Stands.read_of_var {x : Ident} {v : NamedValue}
    (h : Stands n lo hi S env (.var s x) (some v)) :
    ∃ b v', env.find? x.name = some b ∧ S.right.slot b.slot = .ready v' ∧
      passing.Same S.links v v' := by
  cases h with
  | read _ hb hslot hv => exact ⟨_, _, hb, hslot, hv⟩
  | made _ _ _ _ _ hcode =>
    obtain ⟨_, _, _, hmap, -⟩ := hcode 0 _ 0 (.var s x 0)
    cases hmap

/-- A conditional whose test is bound to a temporary. -/
theorem sends_test (ht : ¬ t.isSimple)
    (he : (Expr.cond s t a b : NamedExpr).Original) (hsendt : SendsAlways B t)
    (hsenda : SendsAlways B a) (hsendb : SendsAlways B b)
    (hc : Chains k (temporaries n [t]) (.cond s (standIn n t) a b) (n + (temporaries n [t]).length)
      c n1) : Sends B n k (.cond s t a b) c := by
  intro N M S env env' F hB hS henv hk
  rw [standIn_of_not_isSimple ht] at hc
  refine .left rfl ?_
  simp only [expand, evalAs_cond, bind_assoc, Eval.branch_bind]
  have hpending : Pending B k _ S S env env' n [t] _ c :=
    ⟨by simpa using fun _ => hsendt, ⟨he.1, trivial⟩, ⟨n1, hc⟩, le_rfl, .refl S, hS, henv⟩
  refine meets_operand hpending (by omega) (fun ha => absurd (isSimple_of_isAtomic ha) ht)
    (fun {S1 env1 v n1 c} h1 hrest => ?_)
  obtain ⟨hlater1, hagrees, hst⟩ := h1
  obtain ⟨-, -, ⟨n2, hc⟩, hn1, -, hS1, henv1⟩ := hrest
  rw [show countAfter n t = n + 1 from if_neg (fun ha => ht (isSimple_of_isAtomic ha))] at hst hn1
  have hn1 : n + 1 ≤ n1 := hn1
  rw [standIn_of_not_isSimple ht] at hst
  obtain ⟨y, v', hy, hslot, hv⟩ := hst.read_of_var
  have hk1 := hk.spareLeft.agrees hagrees
  cases hc with
  | nil hc =>
  cases hc with
  | simple hs hr =>
    simp only [isSimple, Bool.and_eq_true] at hs
    refine meets_apply hS1 hlater1 hk1 (fun S2 G hlater2 _ hS2 hnext => ?_)
    cases hr with
    | cond ht' ha hb =>
      cases ht'
      have hslot2 := hlater2.right.ready hslot
      have hcontinues := (hnext.continues (hlater1.trans hlater2) (Stage.Later.refl S2).grown)
      refine .right rfl ?_
      simp only [evalAs_cond, bind_assoc, Eval.branch_bind]
      refine .right rfl (.congr_right (fun m => outcome_var_bind hy hslot2 _) ?_)
      have hbranch := Scheme.meets_branch (hv.mono hlater2.grows)
        (tracks_of_reshapes ha hs.1.2 he.2.1 (N - 1) (M - 1 - 1) S2 env env1 _ _ le_rfl hS2
          (henv1.mono hlater2.grows) hcontinues.spareRight)
        (tracks_of_reshapes hb hs.2 he.2.2 (N - 1) (M - 1 - 1) S2 env env1 _ _ le_rfl hS2
          (henv1.mono hlater2.grows) hcontinues.spareRight)
      exact hbranch.spareRight
  | cond _ _ hr hshares ha hb hc =>
    cases hr
    subst hc
    refine meets_share hshares hS1 (hk1.known (Nat.le_of_succ_le hn1)) ?_
    intro S2 env2 _ _ hlater2 hS2 hagrees2 _ hk' _
    have hy2 := (hagrees2 _ ((known_freshName le_rfl).mono hn1)).trans hy
    have hslot2 := hlater2.right.ready hslot
    have henv2 := hagrees2.envs (henv1.mono hlater2.grows)
    refine .right rfl ?_
    simp only [evalAs_cond]
    refine .right rfl (.congr_right (fun m => outcome_var_bind hy2 hslot2 _) ?_)
    have hk2 := (hk' S2 (hlater1.trans hlater2) (.refl _)).mono (Nat.le_refl (N - 1))
      (Nat.sub_le M 1)
    have hbranch := Scheme.meets_branch (hv.mono hlater2.grows)
      (hsenda _ _ _ _ ha (N - 1) (M - 1) S2 env env2 _ (by omega) hS2 henv2 hk2)
      (hsendb _ _ _ _ hb (N - 1) (M - 1) S2 env env2 _ (by omega) hS2 henv2 (hk2.known ha.le))
    exact hbranch.spareRight
  | operands hs he' _ =>
    cases he' with
    | test => cases hs rfl

/-! ## Definitions -/

theorem not_isMade_of_defsOriginal (h : DefsOriginal ds) : ∀ x ∈ defNames ds, ¬ IsMade x := by
  induction ds with
  | nil => simp [defNames]
  | cons d ds ih =>
    obtain ⟨y, e⟩ := d
    intro x hx
    rcases List.mem_cons.mp hx with rfl | hx
    · exact h.1.1
    · exact ih h.2 x hx

theorem allOriginal_defValues (h : DefsOriginal ds) : AllOriginal (defValues ds) := by
  induction ds with
  | nil => trivial
  | cons d ds ih =>
    obtain ⟨y, e⟩ := d
    exact ⟨h.1.2, ih h.2⟩

theorem ReshapesDefs.values (h : ReshapesDefs ds n ds' n1) :
    ReshapesAll (defValues ds) n (defValues ds') n1 := by
  induction ds generalizing n ds' with
  | nil =>
    cases h
    exact .nil _
  | cons d ds ih =>
    cases h with
    | cons hr hrs => exact .cons hr (ih hrs)

/-- Definitions of simple values. -/
theorem sends_letIn {kind : LetKind} {defs' : List (Ident × NamedExpr)} (hd : defsSimple defs)
    (he : DefsOriginal defs) (hr : ReshapesDefs defs n defs' n1)
    (hshares : Shares k n1 k' wrap n2) (hb : Sends B n2 k' body b) :
    Sends B n k (.letIn s kind defs () body) (wrap (.letIn s kind defs' () b)) := by
  intro N M S env env' F hB hS henv hk
  refine meets_share hshares hS (hk.known hr.le) ?_
  rintro S1 env1 s' z hlater1 hS1 hagrees rfl hk' -
  refine .left rfl (.right rfl ?_)
  simp only [expand, evalAs_letIn, bind_assoc]
  have henv1 := hagrees.envs (henv.mono hlater1.grows)
  have hnames : defNames (expandDefs defs) = defNames defs' := by
    rw [defNames_expandDefs, hr.defNames]
  refine Scheme.meets_define hnames ?_ le_rfl hS1 henv1 (fun S2 hlater2 hS2 henv2 => ?_)
  · rw [defValues_expandDefs]
    exact tracksDefs_of_reshapes hr hd he
  · refine hb (N - 1) (M - 1) S2 _ _ _ (by omega) hS2 henv2 ?_
    refine ((hk' S2 (hlater1.trans hlater2) hlater2.right).spareLeft.mono le_rfl
      (Nat.sub_le M 1)).enter (fun b hb => ?_)
    rw [defNames_expandDefs] at hb
    exact not_isMade_of_defsOriginal he _ (name_mem_of_mem_frameAt hb)

/-- One definition, whose value is not simple: the body becomes a continuation. -/
theorem sends_letOne {x : Ident} {e' : NamedExpr} (hx : ¬ IsMade x.name)
    (hshares : Shares k n k' wrap n1) (hb : Sends B n1 k' body b) (hn : n1 ≤ n2)
    (he : Sends B n2 (mkMap [x] b) e e') :
    Sends B n k (.letIn s .plain [(x, e)] () body) (wrap e') := by
  intro N M S env env' F hB hS henv hk
  refine meets_share hshares hS hk ?_
  rintro S1 env1 s' z hlater1 hS1 hagrees rfl hk' -
  refine .left rfl ?_
  simp only [expand, expandDefs, expandDef, evalAs_letIn, bind_assoc]
  refine .congr_left (fun n => outcome_declare_bind _ _ _) ?_
  simp only [defNames, defValues, List.map_cons, List.map_nil, frameAt, LetKind.scope,
    Eval.bindEach_cons _ _ Machine.isEager_eager, bind_assoc]
  have hlater2 := S1.later_newFrameLeft [x.name]
  have henv1 := hagrees.envs (henv.mono hlater1.grows)
  have hsize : S1.left.slots.size < (S1.newFrameLeft [x.name]).left.slots.size := by
    rw [Stage.newFrameLeft, Store.size_newFrame]
    exact Nat.lt_succ_self _
  refine he (N - 1) M (S1.newFrameLeft [x.name]) env env1 _ (by omega)
    (Stage.related_newFrameLeft hS1 _) henv1 (.map (fun env2 hagrees2 => ?_))
  intro S3 v v' j hlater3 hS3 hv hj hslot hfree
  refine .congr_left (fun n => outcome_bind_of_ok _ (outcome_modify _ _)) ?_
  have hfree' : ∀ j', .slot S1.left.slots.size j' ∉ S3.links := by
    intro j' hl
    rcases hlater3.slots hl with hold | ⟨hge, -⟩
    · exact hS1.slot_notMem_left le_rfl j' hold
    · omega
  have hfilled : (S3.fillLeft S1.left.slots.size v).left.slot S1.left.slots.size = .ready v := by
    rw [Stage.fillLeft, Store.slot_setSlot,
      if_pos ⟨rfl, Nat.lt_of_lt_of_le hsize hlater3.left.size⟩]
  -- the frame of the definition is complete on both sides
  let S4 := (S3.fillLeft S1.left.slots.size v).linkRow S1.left.slots.size j 1
  have hS4 : passing.Related S4 := by
    refine (Stage.related_fillLeft hS3 hfree' v).linkSlot ?_ (Store.lt_size_of_ready hslot) hfree'
      hfree ?_
    · rw [Stage.fillLeft, Store.size_setSlot]
      exact Nat.lt_of_lt_of_le hsize hlater3.left.size
    · rw [hfilled, show (S3.fillLeft S1.left.slots.size v).right.slot j = .ready v' from hslot]
      exact .ready hv
  have hlater4 : S1.Later S4 :=
    ((hlater2.trans hlater3).setLeft le_rfl _).linkRow le_rfl hj 1
  refine hb (N - 1) M S4 _ _ _ (by omega) hS4 ?_ ?_
  · exact .cons_linked (.cons ⟨rfl, List.mem_cons_self⟩ .nil)
      (hagrees2.envs (henv1.mono hlater4.grows))
  · refine ((hk' S4 (hlater1.trans hlater4) hlater4.right).agrees
      (hagrees2.mono hn)).spareLeft.enter (fun b hb => ?_)
    rw [List.mem_singleton.mp hb]
    exact hx

/-! ## Definitions that are bound to temporaries -/

theorem defNames_rebound (n : Nat) (defs : List (Ident × NamedExpr)) :
    defNames (rebind defs (standIns n (defValues defs))) = defNames defs :=
  defNames_rebind (by rw [length_standIns, defValues, List.length_map])

theorem defValues_rebound (n : Nat) (defs : List (Ident × NamedExpr)) :
    defValues (rebind defs (standIns n (defValues defs))) = standIns n (defValues defs) :=
  defValues_rebind (by rw [length_standIns, defValues, List.length_map])

theorem defsSimple_rebound (n : Nat) (defs : List (Ident × NamedExpr)) :
    defsSimple (rebind defs (standIns n (defValues defs))) := by
  rw [← allSimple_values, defValues_rebound]
  exact allSimple_standIns n _

/-- Definitions of stand-ins are converted in one of two ways. -/
theorem Converts.letStandIns
    (h : Converts k (.letIn s .plain (rebind defs (standIns n (defValues defs))) () body) n1 c n2) :
    ∃ ds' n', ReshapesDefs (rebind defs (standIns n (defValues defs))) n1 ds' n' ∧
      ((∃ b, body.isSimple ∧ Reshapes body n' b n2 ∧ c = mkApp k [.letIn s .plain ds' () b]) ∨
        ∃ k' wrap n'' b, Shares k n' k' wrap n'' ∧ Converts k' body n'' b n2 ∧
          c = wrap (.letIn s .plain ds' () b)) := by
  have hd := defsSimple_rebound n defs
  generalize rebind defs (standIns n (defValues defs)) = ds at h hd
  cases h with
  | simple hs hr =>
    cases hr with
    | letIn hds hb =>
      simp only [isSimple, Bool.and_eq_true] at hs
      exact ⟨_, _, hds, .inl ⟨_, hs.2, hb, rfl⟩⟩
  | letIn _ _ hr hshares hb hc => exact ⟨_, _, hr, .inr ⟨_, _, _, _, hshares, hb, hc⟩⟩
  | letOne hs => simp [defsSimple, defSimple, hs] at hd
  | operands hs he =>
    cases he with
    | values _ => exact absurd (by rwa [allSimple_values]) hs

/-- What stands for the values of definitions is bound on the right. -/
theorem meets_bindDefs (hT : passing.Related T)
    (hall : StandsAll n T env lo hi (defValues ds) os) (hr : ReshapesDefs ds n1 ds' n2)
    (hnext : ∀ S' vs vs', os = vs.map some → Stage.Within lo hi T S' → passing.Related S' →
      List.Forall₂ (passing.Same S'.links) vs vs' → Row S'.right T.right.slots.size vs' →
      T.right.slots.size + vs.length ≤ S'.right.slots.size →
      S'.Meets passing N M x
        (fun m => Y m (frameAt T.right.slots.size (defNames ds))))
    (hdead : none ∈ os → Fails x T.left) :
    T.Meets passing N M x
      (fun m => EvalOps.newFrame (defNames ds') >>= fun frame =>
        Eval.bindEach (watched none m) .eager env frame (defValues ds') >>=
          fun _ => Y m frame) := by
  have hlength : (defNames ds).length = (defValues ds).length := by
    rw [defNames, defValues, List.length_map, List.length_map]
  have hsize : (T.newFrameRight (defNames ds)).right.slots.size =
      T.right.slots.size + (defNames ds).length := Store.size_newFrame _ _
  rw [hr.defNames]
  refine .congr_right (fun m => outcome_declare_bind _ _ _) ?_
  refine meets_bindStandIns hall hr.values hlength le_rfl (Nat.le_of_eq hsize.symm)
    (fun k hk => hT.slot_notMem_right hk) le_rfl
    ((Stage.Within.refl lo T).newFrameRight (defNames ds)) (Stage.related_newFrameRight hT _) ?_
      hdead
  intro S' vs vs' hos hW _ hsize' hS' hvs hrow _
  refine hnext S' vs vs' hos hW hS' hvs hrow ?_
  have hlength' := hall.length_eq
  rw [hos, List.length_map] at hlength'
  rw [hsize] at hsize'
  omega

/-- Definitions that the left has bound are bound on the right to what stands for their values. -/
theorem meets_defineStandIns {env1 : Env} {a : Nat} {vs : List NamedValue}
    (hlater : S.Later T) (hlo : S.left.closures ≤ lo) (hT : passing.Related T)
    (henv : passing.Envs T.links env env1)
    (hall : StandsAll n T env1 lo hi (defValues ds) (vs.map some))
    (hr : ReshapesDefs ds n1 ds' n2) (ha : S.left.slots.size ≤ a) (hrow : Row T.left a vs)
    (hsize : a + vs.length ≤ T.left.slots.size)
    (hfree : ∀ i, a ≤ i → i < a + vs.length → ∀ j, .slot i j ∉ T.links)
    (hnext : ∀ S', S.Later S' → T.Grown S' → T.right.Kept S'.right → passing.Related S' →
      passing.Envs S'.links (frameAt a (defNames ds) :: env)
        (frameAt T.right.slots.size (defNames ds) :: env1) →
      S'.Meets passing N M x (fun m => Y m (frameAt T.right.slots.size (defNames ds)))) :
    T.Meets passing N M x
      (fun m => EvalOps.newFrame (defNames ds') >>= fun frame =>
        Eval.bindEach (watched none m) .eager env1 frame (defValues ds') >>=
          fun _ => Y m frame) := by
  refine meets_bindDefs hT hall hr (fun S1 vs1 vs' hos hW hS1 hvs hrow' hsize' => ?_) (by simp)
  obtain rfl : vs = vs1 := List.map_injective_iff.mpr (Option.some_injective _) hos
  have hlength : (defNames ds).length = vs.length := by
    have := hall.length_eq
    rw [List.length_map, defValues, List.length_map] at this
    rw [defNames, List.length_map, this]
  have hS2 : passing.Related (S1.linkRow a T.right.slots.size vs.length) :=
    related_linkRow hS1 hvs (by rw [hW.left]; exact hrow) hrow' (by rw [hW.left]; exact hsize)
      hsize' (fun i hi hlt j hl => hfree i hi hlt j (hW.slots hl))
      (fun j hj i hl => hT.slot_notMem_right hj i (hW.slots hl))
  refine hnext (S1.linkRow a T.right.slots.size vs.length)
    ((hW.later hlater hlo).linkRow ha hlater.right.size _) (hW.grown.linkRow a le_rfl _)
    hW.right hS2 (.cons_linked (linked_frameAt ?_) ?_)
  · rw [hlength]
    exact List.subset_append_left _ _
  · exact henv.mono (fun l hl => List.mem_append_right _ (hW.grows hl))

/-- Definitions with a value that is not there do not succeed. -/
theorem never_letStandIns (hT : passing.Related T)
    (hall : StandsAll n T env lo hi (defValues ds) os) (hnone : none ∈ os)
    (hr : ReshapesDefs ds n1 ds' n2) (m : Nat) (f : NamedValue → Eval Ident Unit NamedValue) :
    ¬ Succeeds (evalAs none m env (.letIn s .plain ds' () b) >>= f) T.right := by
  have hmeets : T.Meets passing 0 (m + 1) failure
      (fun m => evalAs none m env (.letIn s .plain ds' () b) >>= f) := by
    refine .right rfl ?_
    simp only [evalAs_letIn, bind_assoc, LetKind.scope]
    refine meets_bindDefs hT hall hr (fun S' vs vs' hos => ?_) (fun _ => fails_failure _)
    rw [hos] at hnone
    simp at hnone
  exact not_succeeds_of_meets hmeets (Nat.lt_succ_self m)

/-- Several definitions, with values that are not all simple. -/
theorem sends_letMany (he : (Expr.letIn s .plain defs () body : NamedExpr).Original)
    (hsend : ∀ e ∈ defValues defs, ¬ e.isSimple → SendsAlways B e)
    (hbody : SendsAlways B body)
    (hc : Chains k (temporaries n (defValues defs))
      (.letIn s .plain (rebind defs (standIns n (defValues defs))) () body)
      (n + (temporaries n (defValues defs)).length) c n1) :
    Sends B n k (.letIn s .plain defs () body) c := by
  intro N M S env env' F hB hS henv hk
  refine .left rfl ?_
  simp only [expand, evalAs_letIn, bind_assoc, defNames_expandDefs, defValues_expandDefs,
    LetKind.scope]
  refine .congr_left (fun n => outcome_declare_bind _ _ _) ?_
  have hlength : (defNames defs).length = (defValues defs).length := by
    rw [defNames, defValues, List.length_map, List.length_map]
  have hsize : (S.newFrameLeft (defNames defs)).left.slots.size =
      S.left.slots.size + (defNames defs).length := Store.size_newFrame _ _
  refine meets_bindOperands ⟨hsend, allOriginal_defValues he.1, ⟨n1, hc⟩, le_rfl,
    S.later_newFrameLeft _, Stage.related_newFrameLeft hS _, henv⟩ (by omega) hlength le_rfl
    (Nat.le_of_eq hsize.symm) (fun i hi _ j => hS.slot_notMem_left hi j) ?_ ?_
  · rintro T env1 vs n0 c0 ⟨hlater, honward, hT, hagrees, hall, hn0, n0', hc0⟩ hrow -
    obtain ⟨ds', n', hr, hways⟩ := hc0.letStandIns
    have hk0 := (hk.spareLeft.agrees hagrees).known (Nat.le_trans hn0 hr.le)
    have hvs : vs.length = (defNames defs).length := by
      have := hall.length_eq
      rwa [List.length_map, length_standIns, ← hlength] at this
    have hsizeT : S.left.slots.size + vs.length ≤ T.left.slots.size := by
      have := honward.left
      omega
    -- the frame of the definitions is not linked before the right binds them
    have hdefine : ∀ {N M : Nat} {T' : Stage} {env2 : Env} {x : Nat → Eval Ident Unit NamedValue}
        {Y : Nat → Frame → Eval Ident Unit NamedValue}, T.Later T' → T'.left = T.left →
          passing.Related T' →
        Agrees n0 env1 env2 →
        (∀ S', S.Later S' → T'.Grown S' → T'.right.Kept S'.right → passing.Related S' →
          passing.Envs S'.links (frameAt S.left.slots.size (defNames defs) :: env)
            (frameAt T'.right.slots.size (defNames defs) :: env2) →
          S'.Meets passing N M x
            (fun m => Y m (frameAt T'.right.slots.size (defNames defs)))) →
        T'.Meets passing N M x
          (fun m => EvalOps.newFrame (defNames ds') >>= fun frame =>
            Eval.bindEach (watched none m) .eager env2 frame (defValues ds') >>=
              fun _ => Y m frame) := by
      intro N M T' env2 x Y hlater' hleft hT' hagrees' hnext
      have hstands : StandsAll n0 T' env2 S.left.closures T.left.closures
          (defValues (rebind defs (standIns n (defValues defs)))) (vs.map some) := by
        rw [defValues_rebound]
        exact hall.onward hlater'.onward hagrees'
      rw [← defNames_rebound n defs] at hnext
      refine meets_defineStandIns (hlater.trans hlater') le_rfl hT'
        ((hagrees'.mono hn0).envs (hagrees.envs (henv.mono (hlater.trans hlater').grows)))
        hstands hr
        le_rfl (by rw [hleft]; exact hrow) (by rw [hleft]; exact hsizeT) ?_ hnext
      intro i hi hlt j hl
      rcases hlater'.slots hl with hold | ⟨hge, -⟩
      · rcases honward.slots hold with hold | hge
        · exact hS.slot_notMem_left hi j hold
        · omega
      · omega
    rcases hways with ⟨b, hs, hb, rfl⟩ | ⟨k', wrap, n'', b, hshares, hb, rfl⟩
    · refine meets_apply hT hlater hk0 (fun T' G hlater' hleft hT' hnext => ?_)
      refine .right rfl ?_
      simp only [evalAs_letIn, bind_assoc, LetKind.scope]
      refine hdefine hlater' hleft hT' (.refl n0 env1) (fun S' hlaterS hgrown _ hS' henv' => ?_)
      exact tracks_of_reshapes hb hs he.2 (N - 1) (M - 1 - 1) S' _ _ _ _ le_rfl hS' henv'
        (hnext.continues hlaterS hgrown).spareRight
    · refine meets_share hshares hT hk0 ?_
      rintro T' env2 s' z hlater' hT' hagrees' rfl hk' hleft
      refine .right rfl ?_
      simp only [evalAs_letIn, LetKind.scope]
      refine hdefine hlater' hleft hT' (hagrees'.mono hr.le)
        (fun S' hlaterS _ hkept hS' henv' => ?_)
      refine hbody _ _ _ _ hb (N - 1) (M - 1) S' _ _ _ (by omega) hS' henv' ?_
      refine ((hk' S' hlaterS hkept).mono le_rfl (Nat.sub_le M 1)).enter (fun b hb => ?_)
      exact not_isMade_of_defsOriginal he.1 _ (name_mem_of_mem_frameAt hb)
  · rintro T env1 os n0 c0 ⟨hlater, -, hT, hagrees, hall, hn0, n0', hc0⟩ hnone m hm
    obtain ⟨ds', n', hr, hways⟩ := hc0.letStandIns
    have hk0 := (hk.agrees hagrees).known (Nat.le_trans hn0 hr.le)
    rw [← defValues_rebound] at hall
    rcases hways with ⟨b, hs, hb, rfl⟩ | ⟨k', wrap, n'', b, hshares, hb, rfl⟩
    · exact never_apply hT hlater hk0 (fun T' hlater' hT' =>
        never_letStandIns hT' (hall.onward hlater'.onward (.refl _ _)) hnone hr) m hm
    · have hmeets : T.Meets passing N M failure
          (fun m => evalAs none m env1 (wrap (.letIn s .plain ds' () b))) := by
        refine meets_share hshares hT hk0 (fun T' env2 s' z hlater' hT' hagrees' _ _ _ => ?_)
        refine .of_fails (fails_failure _) (fun m _ => ?_)
        have hnever := never_letStandIns (s := s) (b := b) hT'
          (hall.onward hlater'.onward (hagrees'.mono hr.le)) hnone hr m pure
        rwa [bind_pure] at hnever
      exact not_succeeds_of_meets hmeets hm

/-! ## Blocks -/

/-- Two expressions in a block. -/
theorem evalAs_blockTwo (m : Nat) (env : Env) (e e' : NamedExpr) :
    evalAs none (m + 1) env (.block s [e, e']) =
      evalAs none m env e >>= fun _ => evalAs none m env e' := by
  show Eval.sequence (watched none m) .eager env .unit [e, e'] = _
  simp only [Eval.sequence, bind_pure]

/-- The expressions of a block are evaluated in order. -/
theorem meets_sequence {env' : Env} {F : Rest} (hc : ConvertsAll k es n c n1) (hne : es ≠ [])
    (hes : AllOriginal es) (hsend : ∀ e ∈ es, SendsAlways B e) (v : NamedValue)
    (hB : N + M ≤ B) (hS : passing.Related S)
    (henv : passing.Envs S.links env env') (hk : Receives n N M S env' F k) :
    S.Meets passing N M
      (fun n => Eval.sequence (watched none n) .eager env v (expandAll es) >>= F n)
      (fun m => evalAs none m env' c) := by
  induction es generalizing n c n1 M S env' v with
  | nil => exact absurd rfl hne
  | cons e es ih =>
    have hsend' : ∀ e' ∈ es, SendsAlways B e' :=
      fun e' he' => hsend e' (List.mem_cons_of_mem _ he')
    have hsende := hsend e List.mem_cons_self
    simp only [expandAll, Eval.sequence, bind_assoc]
    cases hc with
    | last hc =>
      simp only [expandAll, Eval.sequence, pure_bind]
      exact hsende _ _ _ _ hc N M S env env' F hB hS henv hk
    | simple hs hr hc =>
      refine .right rfl ?_
      simp only [evalAs_blockTwo]
      refine tracks_of_reshapes hr hs hes.1 N (M - 1) S env env' _ _ le_rfl hS henv
        (fun S' w w' hlater hS' _ => ?_)
      exact ih hc (List.cons_ne_nil _ _) hes.2 hsend' w (by omega) hS' (henv.mono hlater.grows)
        (((hk.known hr.le).later hlater).mono le_rfl (Nat.sub_le M 1))
    | call hs hr hc =>
      refine hsende _ _ _ _ hc N M S env env' _ hB hS henv (.map (fun env1 hagrees => ?_))
      intro S' w w' j hlater hS' hw hj hslot _
      have hagrees' := (hagrees.mono (Nat.le_trans (Nat.le_succ n) hr.le)).trans
        (.cons (Nat.lt_succ_self n) j env1)
      have hnext := ih hr (List.cons_ne_nil _ _) hes.2 hsend' w hB hS'
        (hagrees'.envs (henv.mono hlater.grows))
        (((hk.agrees hagrees').known (Nat.le_succ n)).later hlater)
      refine .right rfl ?_
      simp only [evalAs_blockTwo]
      refine .right rfl (.congr_right (fun m => outcome_var_bind
        (find?_cons_of_name (f := [])) hslot _) ?_)
      exact hnext.spareRight.mono le_rfl (Nat.sub_le _ 1)

theorem sends_block (hs : ¬ allSimple es) (hes : AllOriginal es)
    (hsend : ∀ e ∈ es, SendsAlways B e) (hc : ConvertsAll k es n c n1) :
    Sends B n k (.block s es) c := by
  intro N M S env env' F hB hS henv hk
  have hne : es ≠ [] := by
    rintro rfl
    simp [allSimple] at hs
  exact .left rfl (meets_sequence hc hne hes hsend .unit (by omega) hS henv hk.spareLeft)

end

/-! ## All expressions -/

theorem allOriginal_iff : AllOriginal es ↔ ∀ e ∈ es, e.Original := by
  induction es with
  | nil => simp [AllOriginal]
  | cons e es ih => simp [AllOriginal, ih]

theorem weight_lt_listWeight {e : NamedExpr} (h : e ∈ es) : e.weight < listWeight es := by
  induction es with
  | nil => cases h
  | cons e' es ih =>
    rw [listWeight]
    rcases List.mem_cons.mp h with rfl | h
    · omega
    · have := ih h
      omega

/-- If the bodies of functions send their values when fewer levels are followed, every expression
does. -/
theorem sendsAlways_of_bodies {B : Nat} (hbodies : BodiesSend B) (e : NamedExpr)
    (he : e.Original) : SendsAlways B e := by
  -- a rule may convert an expression that is no part of this one, but always one of less weight
  induction hw : e.weight using Nat.strong_induction_on generalizing e with
  | _ w ih =>
  have hpart : ∀ e', e'.weight < e.weight → e'.Original → SendsAlways B e' :=
    fun e' hlt he' => ih _ (by omega) e' he' rfl
  have hparts : ∀ es, listWeight es ≤ e.weight → AllOriginal es →
      ∀ e' ∈ es, SendsAlways B e' :=
    fun es hle hes e' he' => hpart e' (Nat.lt_of_lt_of_le (weight_lt_listWeight he') hle)
      (allOriginal_iff.mp hes e' he')
  intro k n c n' hc
  cases hc with
  | simple hs hr => exact sends_simple hs he hr
  | operands hs hrep hc =>
    cases hrep with
    | @primCall f _ _ _ hf =>
      cases f with
      | prim s1 p =>
        refine sends_primCall he.2 (fun e' he' _ => hparts _ ?_ he.2 e' he') hc
        simp only [weight]
        omega
      | _ => simp [isPrim] at hf
    | @call f _ _ args _ hf =>
      refine sends_operands hbodies hf he (fun e' he' _ => ?_) hc
      rcases List.mem_cons.mp he' with rfl | he'
      · exact hpart _ (by simp only [weight]; omega) he.1
      · exact hparts args (by simp only [weight]; omega) he.2 e' he'
    | unary => exact sends_unary he (hpart _ (by simp only [weight]; omega) he) hc
    | @binary l r _ _ s op hand hor =>
      have hes : AllOriginal [l, r] := ⟨he.1, he.2, trivial⟩
      have hsend : ∀ e ∈ [l, r], ¬ e.isSimple → SendsAlways B e := by
        intro e' he' hs'
        have htwo := two_le_weight e' hs'
        refine hpart e' ?_ (allOriginal_iff.mp hes e' he')
        simp only [weight]
        rcases List.mem_pair.mp he' with rfl | rfl <;> split <;> omega
      by_cases hassign : op = .assign
      · subst hassign
        exact sends_assign hes hsend hc
      · exact sends_binary hand hor hassign hes hsend hc
    | @test t _ a b =>
      exact sends_test (by simpa [allSimple] using hs) he
        (hpart t (by simp only [weight]; omega) he.1)
        (hpart a (by simp only [weight]; omega) he.2.1)
        (hpart b (by simp only [weight]; omega) he.2.2) hc
    | @values body _ defs =>
      refine sends_letMany he (fun e' he' _ => hparts (defValues defs) ?_
        (allOriginal_defValues he.1) e' he') (hpart body (by simp only [weight]; omega) he.2) hc
      rw [listWeight_values]
      simp only [weight]
      omega
  | call hf hs hr hrs => exact sends_call hbodies hf hs he hr hrs
  | @and _ l r _ s _ _ hs hc =>
    have hsimple : ¬ (Expr.binary s .and l r : NamedExpr).isSimple := by simpa [isSimple] using hs
    intro N M S env env' F
    rw [← expand_conjunction s (by simpa using hs)]
    exact hpart _ (weight_conjunction s l r hsimple) ⟨he.1, ⟨he.2, trivial⟩, trivial⟩ _ _ _ _ hc N M
      S env env' F
  | @or _ l r _ s _ _ hs hc =>
    have hsimple : ¬ (Expr.binary s .or l r : NamedExpr).isSimple := by simpa [isSimple] using hs
    intro N M S env env' F
    rw [← expand_disjunction s (by simpa using hs)]
    exact hpart _ (weight_disjunction s l r hsimple) ⟨he.1, trivial, ⟨he.2, trivial⟩⟩ _ _ _ _ hc N M
      S env env' F
  | @cond _ _ t _ a _ b _ _ _ _ _ _ _ _ _ ht _ hr hk ha hb hc =>
    rw [hc]
    exact sends_cond ht he.1 hr hk (hpart a (by simp only [weight]; omega) he.2.1 _ _ _ _ ha)
      (hpart b (by simp only [weight]; omega) he.2.2 _ _ _ _ hb) ha.le
  | letIn hd _ hr hk hb hc =>
    rw [hc]
    exact sends_letIn hd he.1 hr hk (hpart _ (by simp only [weight]; omega) he.2 _ _ _ _ hb)
  | letOne _ hk hb hx hc =>
    rw [hc]
    exact sends_letOne he.1.1.1 hk (hpart _ (by simp only [weight]; omega) he.2 _ _ _ _ hb) hb.le
      (hpart _ (by simp only [weight, defsWeight, defWeight]; omega) he.1.1.2 _ _ _ _ hx)
  | @block _ _ _ es _ _ hs hc =>
    exact sends_block hs he (hparts es (by simp only [weight]; omega) he) hc

/-- Every expression sends its value to the continuation that it is converted with. -/
theorem sendsAlways (B : Nat) (e : NamedExpr) (he : e.Original) : SendsAlways B e := by
  induction B using Nat.strong_induction_on generalizing e with
  | _ B ih => exact sendsAlways_of_bodies ih e he

end Conversion

end Mapling
