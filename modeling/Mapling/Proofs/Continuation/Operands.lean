import Mapling.Proofs.Continuation.ContinuationReceivers

/-! # Operands and what stands for them

Where an expression has operands that call functions, conversion evaluates the operands one by one
and binds them to temporaries. Operands that are literals, variables or functions are not bound:
they stand for themselves and are evaluated late, after the temporaries are. So the two sides do
not evaluate in the same order. A stand-in is evaluated to the value that its operand had earlier
(`Stands`): a variable is still what it was, and a function that was made early on the left is made
late on the right, where it is linked as late.

An operand that is a variable without a value fails at once on the left. The right goes on with the
other operands first, and fails when it comes to the stand-in or does not end. -/

namespace Mapling

variable {es : List NamedExpr} {os : List (Option NamedValue)} {e : NamedExpr}
  {o : Option NamedValue} {xs : List String} {F : Rest}

namespace Stage

variable {S S' S'' T : Stage} {lo hi hi' i : Nat}

/-- What is at hand on the right stays at hand; slots on the left may have been filled. -/
structure Onward (S S' : Stage) : Prop where
  grows : S.links ⊆ S'.links
  left : S.left.slots.size ≤ S'.left.slots.size
  right : S.right.Kept S'.right
  slots : ∀ {i j}, .slot i j ∈ S'.links → .slot i j ∈ S.links ∨ S.left.slots.size ≤ i
  made : S.left.closures ≤ S'.left.closures
  closures : ∀ {i j}, .closure i j ∈ S'.links → .closure i j ∈ S.links ∨ S.left.closures ≤ i

theorem Later.onward (h : S.Later S') : S.Onward S' :=
  ⟨h.grows, h.left.size, h.right, fun hl => (h.slots hl).imp id And.left, h.made, h.closures⟩

theorem Onward.trans (h : S.Onward S') (h' : S'.Onward S'') : S.Onward S'' := by
  refine ⟨fun l hl => h'.grows (h.grows hl), Nat.le_trans h.left h'.left, h.right.trans h'.right,
    fun hl => ?_, Nat.le_trans h.made h'.made, fun hl => ?_⟩
  · rcases h'.slots hl with hold | hi
    · exact h.slots hold
    · exact .inr (Nat.le_trans h.left hi)
  · rcases h'.closures hl with hold | hi
    · exact h.closures hold
    · exact .inr (Nat.le_trans h.made hi)

def fillLeft (S : Stage) (i : Nat) (v : NamedValue) : Stage :=
  { S with left := S.left.setSlot i (.ready v) }

theorem Onward.fillLeft (h : S.Onward S') (i : Nat) (v : NamedValue) :
    S.Onward (S'.fillLeft i v) := by
  refine ⟨h.grows, ?_, h.right, h.slots, h.made, h.closures⟩
  rw [Stage.fillLeft, Store.size_setSlot]
  exact h.left

variable {σ : Scheme}

theorem related_fillLeft (h : σ.Related S) (hi : ∀ j, .slot i j ∉ S.links) (v : NamedValue) :
    σ.Related (S.fillLeft i v) := by
  refine h.setLeft (fun k j hl => ?_) (fun k j hl => ⟨(h.cell hl).1, rfl⟩) le_rfl
  have hne : i ≠ k := fun heq => hi j (heq ▸ hl)
  exact ⟨by simpa using (h.slot hl).1, by rw [Store.slot_setSlot, if_neg (fun hc => hne hc.1)]⟩

/-- The right store goes on alone from the stage `T`, and closures that the left has made from
number `lo` to `hi` are linked. -/
structure Within (lo hi : Nat) (T S : Stage) : Prop where
  left : S.left = T.left
  grows : T.links ⊆ S.links
  right : T.right.Kept S.right
  slots : ∀ {i j}, .slot i j ∈ S.links → .slot i j ∈ T.links
  closures : ∀ {i j}, .closure i j ∈ S.links → .closure i j ∈ T.links ∨ lo ≤ i ∧ i < hi

def closureLeft (S : Stage) (c : Closure Ident Unit) : Stage :=
  { S with left := (S.left.newClosure c).2 }

theorem later_closureLeft (S : Stage) (c : Closure Ident Unit) : S.Later (S.closureLeft c) :=
  later_left (.of_slots rfl) (Nat.le_succ _)

theorem related_closureLeft (h : σ.Related S) (c : Closure Ident Unit) :
    σ.Related (S.closureLeft c) :=
  h.keepLeft (.of_slots rfl) rfl (Nat.le_succ _)

def linkRight (S : Stage) (i : Nat) (c : Closure Ident Unit) : Stage :=
  ⟨.closure i S.right.closures :: S.links, S.left, (S.right.newClosure c).2⟩

theorem related_linkRight (h : σ.Related S) (hi : i < S.left.closures)
    (hfree : ∀ j, .closure i j ∉ S.links) (c : Closure Ident Unit) :
    σ.Related (S.linkRight i c) := by
  have hright : σ.Related { S with right := (S.right.newClosure c).2 } :=
    h.keepRight (.of_slots rfl) rfl (Nat.le_succ _)
  exact hright.linkClosure hi (Nat.lt_succ_self _) hfree h.right_ne_closures

namespace Within

theorem refl (lo : Nat) (T : Stage) : Within lo lo T T :=
  ⟨rfl, fun _ hl => hl, .refl _, id, .inl⟩

variable (h : Within lo hi T S)
include h

theorem widen (hhi : hi ≤ hi') : Within lo hi' T S :=
  ⟨h.left, h.grows, h.right, h.slots, fun hl => (h.closures hl).imp id
    (fun hi => ⟨hi.1, Nat.lt_of_lt_of_le hi.2 hhi⟩)⟩

theorem linkRight (hlo : lo ≤ hi) (hi1 : hi ≤ i) (hi2 : i < hi') (c : Closure Ident Unit) :
    Within lo hi' T (S.linkRight i c) := by
  refine ⟨h.left, fun l hl => List.mem_cons_of_mem _ (h.grows hl), h.right.trans (.of_slots rfl),
    fun hl => ?_, fun hl => ?_⟩
  · simp only [Stage.linkRight, List.mem_cons, reduceCtorEq, false_or] at hl
    exact h.slots hl
  · simp only [Stage.linkRight, List.mem_cons, Link.closure.injEq] at hl
    rcases hl with ⟨rfl, -⟩ | hl
    · exact .inr ⟨by omega, hi2⟩
    · exact (h.closures hl).imp id (fun hi => ⟨hi.1, by omega⟩)

theorem newFrameRight (xs : List String) : Within lo hi T (S.newFrameRight xs) :=
  ⟨h.left, h.grows, h.right.trans (Store.kept_newFrame _ _), h.slots, h.closures⟩

theorem fillRight {j : Nat} (hj : T.right.slots.size ≤ j) (v : NamedValue) :
    Within lo hi T (S.fillRight j v) :=
  ⟨h.left, h.grows, h.right.setSlot hj _, h.slots, h.closures⟩

theorem grown : T.Grown S :=
  ⟨h.grows, h.right.size, fun hl => .inl (h.slots hl)⟩

/-- A stage within which the right goes on is later than those before the closures were made. -/
theorem later {S0 : Stage} (hlater : S0.Later T) (hlo : S0.left.closures ≤ lo) : S0.Later S := by
  refine ⟨fun l hl => h.grows (hlater.grows hl), by rw [h.left]; exact hlater.left,
    hlater.right.trans h.right, fun hl => hlater.slots (h.slots hl),
    by rw [h.left]; exact hlater.made,
    fun hl => ?_⟩
  rcases h.closures hl with hold | ⟨hi, -⟩
  · exact hlater.closures hold
  · exact .inr (Nat.le_trans hlo hi)

end Within

end Stage

namespace Conversion

open Mapling.Expr

/-! ## Stand-ins -/

/-- The expression `e` stands for an operand with the value `o`, or for a variable that has no
value: evaluating it on the right gives what the operand had on the left. A function is one that
the left has made, from number `lo` to `hi`, and that is not linked yet. -/
inductive Stands (n lo hi : Nat) (S : Stage) (env : Env) :
    NamedExpr → Option NamedValue → Prop
  | int (s : Span) (k : Int) : Stands n lo hi S env (.int s k) (some (.int k))
  | bool (s : Span) (b : Bool) : Stands n lo hi S env (.bool s b) (some (.bool b))
  | null (s : Span) : Stands n lo hi S env (.null s) (some .null)
  | read {s : Span} {x : Ident} {b : Binding} {v v' : NamedValue} (hknown : Known n x.name)
      (hb : env.find? x.name = some b) (hslot : S.right.slot b.slot = .ready v')
      (hv : passing.Same S.links v v') : Stands n lo hi S env (.var s x) (some v)
  | stuck {s : Span} {x : Ident} (hknown : Known n x.name)
      (hb : ∀ b, env.find? x.name = some b →
        b.slot < S.right.slots.size ∧ S.right.slot b.slot = .uninit) :
      Stands n lo hi S env (.var s x) none
  | made {e b : NamedExpr} {i : Nat} {ps : List Ident} {env1 : Env} (hlo : lo ≤ i) (hhi : i < hi)
      (hmade : i < S.left.closures) (hfree : ∀ j, .closure i j ∉ S.links)
      (henv : passing.Envs S.links env1 env)
      (hcode : ∀ n r n', Reshapes e n r n' →
        ∃ s ps' b', r = .map s ps' () b' ∧ Passing ps b ps' b') :
      Stands n lo hi S env e (some (.closure i ⟨ps, (), b, env1⟩))

inductive StandsAll (n : Nat) (S : Stage) (env : Env) :
    Nat → Nat → List NamedExpr → List (Option NamedValue) → Prop
  | nil {lo hi : Nat} (h : lo ≤ hi) : StandsAll n S env lo hi [] []
  | cons {lo mid hi : Nat} {e : NamedExpr} {es : List NamedExpr} {o : Option NamedValue}
      {os : List (Option NamedValue)} (hmid : lo ≤ mid) (h : Stands n lo mid S env e o)
      (hs : StandsAll n S env mid hi es os) :
      StandsAll n S env lo hi (e :: es) (o :: os)

section

variable {n n' lo hi : Nat} {S S' : Stage} {env env' env1 : Env} {e : NamedExpr}
  {o : Option NamedValue}

/-- What stands for an operand goes on standing for it as the stores grow. -/
theorem Stands.onward (h : Stands n lo hi S env e o) (honward : S.Onward S')
    (hagrees : Agrees n env env1) : Stands n lo hi S' env1 e o := by
  cases h with
  | int s k => exact .int s k
  | bool s b => exact .bool s b
  | null s => exact .null s
  | read hknown hb hslot hv =>
    exact .read hknown ((hagrees _ hknown).trans hb) (honward.right.ready hslot)
      (hv.mono honward.grows)
  | stuck hknown hb =>
    refine .stuck hknown (fun b hfind => ?_)
    obtain ⟨hlt, hslot⟩ := hb b ((hagrees _ hknown).symm.trans hfind)
    exact ⟨Nat.lt_of_lt_of_le hlt honward.right.size,
      (honward.right.slot _ hlt).trans hslot⟩
  | made hlo hhi hmade hfree henv hcode =>
    refine .made hlo hhi (Nat.lt_of_lt_of_le hmade honward.made) (fun j hl => ?_)
      (hagrees.envs (henv.mono honward.grows)) hcode
    rcases honward.closures hl with hold | hge
    · exact hfree j hold
    · omega

theorem Stands.known (h : Stands n lo hi S env e o) (hn : n ≤ n') :
    Stands n' lo hi S env e o := by
  cases h with
  | int s k => exact .int s k
  | bool s b => exact .bool s b
  | null s => exact .null s
  | read hknown hb hslot hv => exact .read (hknown.mono hn) hb hslot hv
  | stuck hknown hb => exact .stuck (hknown.mono hn) hb
  | made hlo hhi hmade hfree henv hcode => exact .made hlo hhi hmade hfree henv hcode

theorem StandsAll.onward (h : StandsAll n S env lo hi es os) (honward : S.Onward S')
    (hagrees : Agrees n env env1) : StandsAll n S' env1 lo hi es os := by
  induction h with
  | nil h => exact .nil h
  | cons hmid hst _ ih => exact .cons hmid (hst.onward honward hagrees) ih

/-- An atomic operand: it has a value at once, or it has none. -/
theorem stands_atomic (ha : e.isAtomic) (he : e.Original) (hS : passing.Related S)
    (henv : passing.Envs S.links env env') :
    ∃ S' o, S.Later S' ∧ S'.right = S.right ∧ passing.Related S' ∧
      Stands n S.left.closures S'.left.closures S' env' e o ∧
      (∀ v, o = some v → ∀ (n : Nat) (f : NamedValue → Eval Ident Unit NamedValue),
        outcome (evalAs none (n + 1) env e.expand >>= f) S.left = outcome (f v) S'.left) ∧
      (o = none → Fails (fun n => evalAs none (n + 1) env e.expand) S.left) := by
  -- a function takes a number on the left, everything else leaves the stage as it is
  have hfunction : ∀ (ps : List Ident) (b : NamedExpr),
      (∀ n r n', Reshapes e n r n' → ∃ s ps' b', r = .map s ps' () b' ∧ Passing ps b ps' b') →
      Stands n S.left.closures (S.left.closures + 1) (S.closureLeft ⟨ps, (), b, env⟩) env' e
        (some (.closure S.left.closures ⟨ps, (), b, env⟩)) := by
    intro ps b hcode
    refine .made le_rfl (Nat.lt_succ_self _) (Nat.lt_succ_self _) (fun j hl => ?_) henv hcode
    exact Nat.lt_irrefl _ (hS.holds _ hl).1
  cases e with
  | int s k =>
    exact ⟨S, some (.int k), .refl S, rfl, hS, .int s k, by rintro v ⟨⟩ n f; rfl, nofun⟩
  | bool s b =>
    exact ⟨S, some (.bool b), .refl S, rfl, hS, .bool s b, by rintro v ⟨⟩ n f; rfl, nofun⟩
  | null s => exact ⟨S, some .null, .refl S, rfl, hS, .null s, by rintro v ⟨⟩ n f; rfl, nofun⟩
  | var s x =>
    have hknown := known_of_not_isMade (show ¬ IsMade x.name from he) n
    rcases henv x.name he with ⟨hnone, hnone'⟩ | ⟨b, b', hb, hb', hl⟩
    · refine ⟨S, none, .refl S, rfl, hS, .stuck hknown (fun b hb => ?_), nofun, fun _ => ?_⟩
      · rw [hnone'] at hb
        cases hb
      · simp only [expand, evalAs_var, hnone]
        exact Fails.throw _
    · obtain ⟨-, hlt, hsame⟩ := hS.slot hl
      generalize hi : S.left.slot b.slot = y, hj : S.right.slot b'.slot = y' at hsame
      cases hsame with
      | uninit =>
        refine ⟨S, none, .refl S, rfl, hS, .stuck hknown (fun b1 hb1 => ?_), nofun, fun _ => ?_⟩
        · cases hb'.symm.trans hb1
          exact ⟨hlt, hj⟩
        · simp only [expand, evalAs_var, hb]
          exact Fails.force _ _ hi
      | @ready v v' hv =>
        refine ⟨S, some v, .refl S, rfl, hS, .read hknown hb' hj hv, ?_, nofun⟩
        rintro _ ⟨⟩ m f
        exact outcome_var_bind hb hi f
  | prim s p =>
    refine ⟨S.closureLeft ⟨primParams p, (), primBody p, env⟩, _, S.later_closureLeft _, rfl,
      Stage.related_closureLeft hS _, hfunction (primParams p) (primBody p) ?_, ?_, nofun⟩
    · rintro m r m' ⟨⟩
      exact ⟨_, _, _, rfl, .prim p m⟩
    · rintro v ⟨⟩ m f
      rfl
  | map s ps u body =>
    obtain ⟨⟩ := u
    refine ⟨S.closureLeft ⟨ps, (), body.expand, env⟩, _, S.later_closureLeft _, rfl,
      Stage.related_closureLeft hS _, hfunction ps body.expand ?_, ?_, nofun⟩
    · intro m r m' hr
      cases hr with
      | map hb => exact ⟨_, _, _, rfl, .map he.1 he.2.1 he.2.2 hb⟩
    · rintro v ⟨⟩ m f
      rfl
  | _ => simp [isAtomic] at ha

end

def Row (s : NamedStore) (a : Nat) : List NamedValue → Prop
  | [] => True
  | v :: vs => s.slot a = .ready v ∧ Row s (a + 1) vs

/-! ## Evaluating what stands in -/

section

variable {n n1 n2 lo0 lo mid hi N M : Nat} {T S : Stage} {env : Env}
  {x : Nat → Eval Ident Unit NamedValue}

/-- A stand-in that is evaluated gives the value of its operand. -/
theorem meets_standIn {r : NamedExpr} {G : Rest}
    (hst : Stands n lo mid T env e o) (hmid : lo ≤ mid) (hr : Reshapes e n1 r n2)
    (hlo : lo0 ≤ lo) (hT : Stage.Within lo0 lo T S) (hS : passing.Related S)
    (hnext : ∀ S' v v', o = some v → Stage.Within lo0 mid T S' → S.right.Kept S'.right →
      S.links ⊆ S'.links → passing.Related S' → passing.Same S'.links v v' →
      S'.Meets passing N M x (fun m => G m v'))
    (hdead : o = none → Fails x S.left) :
    S.Meets passing N M x (fun m => evalAs none m env r >>= G m) := by
  have hnow : ∀ v v', o = some v → passing.Same S.links v v' →
      S.Meets passing N (M - 1) x (fun m => G (m + 1) v') :=
    fun v v' ho hv => (hnext S v v' ho (hT.widen hmid) (.refl _) (fun _ hl => hl) hS hv).spareRight
  cases hst with
  | int s k =>
    cases hr
    exact .right rfl (hnow _ _ rfl (.int k))
  | bool s b =>
    cases hr
    exact .right rfl (hnow _ _ rfl (.bool b))
  | null s =>
    cases hr
    exact .right rfl (hnow _ _ rfl .null)
  | read _ hb hslot hv =>
    cases hr
    refine .right rfl (.congr_right (fun m => outcome_var_bind hb (hT.right.ready hslot) _) ?_)
    exact hnow _ _ rfl (hv.mono hT.grows)
  | @stuck s y _ hb =>
    cases hr
    refine .right rfl (.of_both_fail (hdead rfl) (Fails.bind ?_ _))
    simp only [evalAs_var]
    cases hfind : env.find? y.name with
    | none => exact Fails.throw _
    | some b =>
      obtain ⟨hlt, hslot⟩ := hb b hfind
      exact Fails.force _ _ ((hT.right.slot _ hlt).trans hslot)
  | @made _ b i ps env1 hi1 hi2 hmade hfree henv hcode =>
    obtain ⟨s, ps', b', rfl, hcode⟩ := hcode _ _ _ hr
    have hfreeS : ∀ j, .closure i j ∉ S.links := by
      intro j hl
      rcases hT.closures hl with hold | ⟨-, hlt⟩
      · exact hfree j hold
      · omega
    have hS' := Stage.related_linkRight hS (by rw [hT.left]; exact hmade) hfreeS
      ⟨ps', (), b', env⟩
    have hv : passing.Same (S.linkRight i ⟨ps', (), b', env⟩).links
      (.closure i ⟨ps, (), b, env1⟩)
        (.closure S.right.closures ⟨ps', (), b', env⟩) :=
      .closure List.mem_cons_self hcode
        (henv.mono (fun l hl => List.mem_cons_of_mem _ (hT.grows hl)))
    exact .right rfl (hnext _ _ _ rfl (hT.linkRight hlo hi1 hi2 _) (.of_slots rfl)
      (List.subset_cons_self _ _) hS' hv).spareRight

/-- Stand-ins that are bound one after the other to new slots on the right. -/
theorem meets_bindStandIns {rs : List NamedExpr} {Y : Nat → Eval Ident Unit NamedValue}
    (hst : StandsAll n T env lo hi es os)
    (hr : ReshapesAll es n1 rs n2) (hlen : xs.length = es.length) {b : Nat}
    (hb : T.right.slots.size ≤ b) (hsize : b + xs.length ≤ S.right.slots.size)
    (hfree : ∀ k, b ≤ k → ∀ i, .slot i k ∉ T.links) (hlo : lo0 ≤ lo)
    (hT : Stage.Within lo0 lo T S) (hS : passing.Related S)
    (hnext : ∀ S' vs vs', os = vs.map some → Stage.Within lo0 hi T S' → S.links ⊆ S'.links →
      S.right.slots.size ≤ S'.right.slots.size → passing.Related S' →
      List.Forall₂ (passing.Same S'.links) vs vs' → Row S'.right b vs' →
      (∀ k, k < b → S'.right.slot k = S.right.slot k) →
      S'.Meets passing N M x Y)
    (hdead : none ∈ os → Fails x S.left) :
    S.Meets passing N M x
      (fun m => Eval.bindEach (watched none m) .eager env (frameAt b xs) rs >>=
        fun _ => Y m) := by
  induction hst generalizing S n1 rs b xs with
  | @nil lo hi hle =>
    cases hr
    cases xs with
    | nil =>
      exact hnext S [] [] rfl (hT.widen hle) (fun _ hl => hl) le_rfl hS .nil trivial
        (fun _ _ => rfl)
    | cons => cases hlen
  | @cons lo mid hi e es o os hmid hst _ ih =>
    cases hr with
    | cons hr hrs =>
    cases xs with
    | nil => cases hlen
    | cons y xs =>
      simp only [frameAt, Eval.bindEach_cons _ _ Machine.isEager_eager, bind_assoc]
      simp only [List.length_cons, Nat.add_right_cancel_iff] at hlen
      simp only [List.length_cons] at hsize
      refine meets_standIn hst hmid hr hlo hT hS (fun S1 v v' ho hT1 hkept hgrows hS1 hv => ?_)
        (fun ho => hdead (by rw [ho]; exact List.mem_cons_self))
      have hsize1 := hkept.size
      have hfree1 : ∀ i, .slot i b ∉ S1.links :=
        fun i hl => hfree b le_rfl i (hT1.slots hl)
      refine .congr_right (fun m => outcome_bind_of_ok _ (outcome_modify _ _)) ?_
      have hleft : (S1.fillRight b v').left = S.left := by
        rw [Stage.fillRight, hT1.left, hT.left]
      rw [← hleft] at hdead
      refine ih hrs hlen (by omega) ?_ (fun k hk => hfree k (by omega)) (by omega)
        (hT1.fillRight hb v') (Stage.related_fillRight hS1 hfree1 v') ?_ ?_
      · rw [Stage.fillRight, Store.size_setSlot]
        omega
      · intro S' vs vs' hos hT' hgrows' hsize' hS' hvs hrow hbelow
        rw [Stage.fillRight, Store.size_setSlot] at hsize'
        have hslot : S'.right.slot b = .ready v' :=
          (hbelow b (by omega)).trans (S1.slot_fillRight (by omega) v')
        refine hnext S' (v :: vs) (v' :: vs') (by rw [ho, hos, List.map_cons]) hT'
          (fun l hl => hgrows' (hgrows hl)) (by omega) hS' (.cons (hv.mono hgrows') hvs)
          ⟨hslot, hrow⟩ (fun k hk => ?_)
        calc S'.right.slot k = (S1.fillRight b v').right.slot k := hbelow k (by omega)
          _ = S1.right.slot k := by rw [Stage.fillRight, Store.slot_setSlot, if_neg (by omega)]
          _ = S.right.slot k := hkept.slot k (by omega)
      · exact fun hnone => hdead (List.mem_cons_of_mem _ hnone)

end

/-! ## Evaluating operands -/

/-- The value of the expression, as it is after expansion, is passed to the continuation in its
converted form. -/
def Sends (B n : Nat) (k e c : NamedExpr) : Prop :=
  ∀ N M S env env' F, N + M ≤ B → passing.Related S →
    passing.Envs S.links env env' →
    Receives n N M S env' F k →
    Meets passing.goal N M (fun m => evalAs none m env e.expand >>= F m) S.left
      (fun m => evalAs none m env' c) S.right

/-- The value of the expression is passed on in every conversion of it. -/
def SendsAlways (B : Nat) (e : NamedExpr) : Prop :=
  ∀ k n c n', Converts k e n c n' → Sends B n k e c

theorem not_excused (e : EvalError) : ¬ passing.goal.excused e := nofun

def failure (_ : Nat) : Eval Ident Unit NamedValue := throw .divisionByZero

theorem fails_failure (s : NamedStore) : Fails failure s := Fails.throw _

/-- What meets a failure does not succeed. -/
theorem not_succeeds_of_meets {N M m : Nat} {s t : NamedStore} {y : Nat →
    Eval Ident Unit NamedValue}
    (h : Meets passing.goal N M failure s y t) (hm : m < M) : ¬ Succeeds (y m) t :=
  h.not_succeeds (fails_failure s).never not_excused m hm

/-- Operands are evaluated from the stage `S` on, which is later than `S0`, and on the right in the
environment `env`. At the stage `S'` their stand-ins stand for `os` in `env'`, and the expression
that uses them is yet to be evaluated, after conversion to `c`. -/
structure Evaluated (k body : NamedExpr) (S0 S : Stage) (env : Env) (n : Nat)
    (es : List NamedExpr) (S' : Stage) (env' : Env) (os : List (Option NamedValue)) (n' : Nat)
    (c : NamedExpr) : Prop where
  later : S0.Later S'
  onward : S.Onward S'
  related : passing.Related S'
  agrees : Agrees n env env'
  stands : StandsAll n' S' env' S.left.closures S'.left.closures (standIns n es) os
  le : n ≤ n'
  converts : ∃ n'', Converts k body n' c n''

/-- The operands `es` are yet to be evaluated, on the left in `env` and on the right in `env'`.
There the chain of their temporaries has been converted to `c`. -/
structure Pending (B : Nat) (k body : NamedExpr) (S0 S : Stage) (env env' : Env)
    (n : Nat) (es : List NamedExpr) (n1 : Nat) (c : NamedExpr) : Prop where
  sends : ∀ e ∈ es, ¬ e.isSimple → SendsAlways B e
  original : AllOriginal es
  chains : ∃ n2, Chains k (temporaries n es) body n1 c n2
  le : n + (temporaries n es).length ≤ n1
  later : S0.Later S
  related : passing.Related S
  envs : passing.Envs S.links env env'

/-- An operand is evaluated from the stage `S` to the stage `S1`, where its stand-in stands for `o`
in `env1`. -/
structure Passed (S : Stage) (env : Env) (n : Nat) (e : NamedExpr) (S1 : Stage)
    (env1 : Env) (o : Option NamedValue) : Prop where
  later : S.Later S1
  agrees : Agrees n env env1
  stands : Stands (countAfter n e) S.left.closures S1.left.closures S1 env1 (standIn n e) o

/-- After operands that evaluate to something in `P` the converted expression never succeeds. -/
def Dead (M : Nat) (k body : NamedExpr) (S0 S : Stage) (env : Env) (n : Nat)
    (es : List NamedExpr) (P : List (Option NamedValue) → Prop) : Prop :=
  ∀ {S' env' os n' c}, Evaluated k body S0 S env n es S' env' os n' c → P os →
    ∀ m, m < M → ¬ Succeeds (evalAs none m env' c) S'.right

theorem le_countAfter (n : Nat) (e : NamedExpr) : n ≤ countAfter n e := by
  unfold countAfter
  split <;> omega

section

variable {n n1 n2 N M B : Nat} {S S0 : Stage} {env env' : Env} {k body c : NamedExpr}
variable {es : List NamedExpr} {S1 : Stage} {env1 : Env}

/-- No operands are left. -/
theorem Pending.evaluated (h : Pending B k body S0 S env env' n [] n1 c) :
    Evaluated k body S0 S env' n [] S env' [] n1 c := by
  obtain ⟨n2, hc⟩ := h.chains
  cases hc with
  | nil hc =>
    exact ⟨h.later, (Stage.Later.refl S).onward, h.related, .refl n env', .nil le_rfl,
      Nat.le_of_add_right_le h.le, n2, hc⟩

/-- An operand is evaluated before the others. -/
theorem Evaluated.cons {S' : Stage} (honward : S.Onward S1)
    (hagrees : Agrees n env env1)
    (hst : Stands (countAfter n e) S.left.closures S1.left.closures S1 env1 (standIn n e) o)
    (h : Evaluated k body S0 S1 env1 (countAfter n e) es S' env' os n1 c) :
    Evaluated k body S0 S env n (e :: es) S' env' (o :: os) n1 c where
  later := h.later
  onward := honward.trans h.onward
  related := h.related
  agrees := hagrees.trans (h.agrees.mono (le_countAfter n e))
  stands := .cons honward.made ((hst.onward h.onward h.agrees).known h.le) h.stands
  le := Nat.le_trans (le_countAfter n e) h.le
  converts := h.converts

theorem Passed.cons {S' : Stage} (h1 : Passed S env n e S1 env1 o)
    (h : Evaluated k body S0 S1 env1 (countAfter n e) es S' env' os n1 c) :
    Evaluated k body S0 S env n (e :: es) S' env' (o :: os) n1 c :=
  .cons h1.later.onward h1.agrees h1.stands h

/-- The other operands are pending once the first one is evaluated. -/
theorem Pending.rest {n1' n2 : Nat} {c' : NamedExpr}
    (h : Pending B k body S0 S env env' n (e :: es) n1 c)
    (h1 : Passed S env' n e S1 env1 o) (hS1 : passing.Related S1)
    (hc : Chains k (temporaries (countAfter n e) es) body n1' c' n2)
    (hn : countAfter n e + (temporaries (countAfter n e) es).length ≤ n1') :
    Pending B k body S0 S1 env env1 (countAfter n e) es n1' c' :=
  ⟨fun e' he' => h.sends e' (List.mem_cons_of_mem _ he'), h.original.2, ⟨n2, hc⟩, hn,
    h.later.trans h1.later, hS1, h1.agrees.envs (h.envs.mono h1.later.grows)⟩

/-- An atomic operand stands for itself. -/
theorem Pending.atomic (h : Pending B k body S0 S env env' n (e :: es) n1 c)
    (ha : e.isAtomic) : ∃ S1 o, S1.right = S.right ∧ Passed S env' n e S1 env' o ∧
      Pending B k body S0 S1 env env' (countAfter n e) es n1 c ∧
      (∀ v, o = some v → ∀ (n : Nat) (f : NamedValue → Eval Ident Unit NamedValue),
        outcome (evalAs none (n + 1) env e.expand >>= f) S.left = outcome (f v) S1.left) ∧
      (o = none → Fails (fun n => evalAs none (n + 1) env e.expand) S.left) := by
  have hcount : countAfter n e = n := if_pos ha
  have htemporaries : temporaries n (e :: es) = temporaries n es := if_pos ha
  obtain ⟨n2, hc⟩ := h.chains
  have hn := h.le
  rw [htemporaries] at hc hn
  obtain ⟨S1, o, hlater, hright, hS1, hst, hvalue, hnone⟩ :=
    stands_atomic (n := n) ha h.original.1 h.related h.envs
  have h1 : Passed S env' n e S1 env' o :=
    ⟨hlater, .refl n env', by rwa [hcount, show standIn n e = e from if_pos ha]⟩
  exact ⟨S1, o, hright, h1, h.rest h1 hS1 (by rwa [hcount]) (by rwa [hcount]), hvalue, hnone⟩

/-- The first of the operands that are left. -/
theorem meets_operand (h : Pending B k body S0 S env env' n (e :: es) n1 c) (hB : N + M ≤ B)
    (hstuck : ∀ {S1}, e.isAtomic → S1.right = S.right → Passed S env' n e S1 env' none →
      Pending B k body S0 S1 env env' (countAfter n e) es n1 c →
      ∀ m, m < M → ¬ Succeeds (evalAs none m env' c) S.right)
    (hnext : ∀ {S1 env1 v n1 c}, Passed S env' n e S1 env1 (some v) →
      Pending B k body S0 S1 env env1 (countAfter n e) es n1 c →
      S1.Meets passing N M (fun n => F n v) (fun m => evalAs none m env1 c)) :
    S.Meets passing N M (fun n => evalAs none n env e.expand >>= F n)
      (fun m => evalAs none m env' c) := by
  by_cases ha : e.isAtomic = true
  · obtain ⟨S1, o, hright, h1, hrest, hvalue, hnone⟩ := h.atomic ha
    refine .left rfl ?_
    cases o with
    | none => exact .of_fails ((hnone rfl).bind _) (hstuck ha hright h1 hrest)
    | some v =>
      refine .congr_left (fun m => hvalue v rfl m _) ?_
      rw [← hright]
      exact (hnext h1 hrest).spareLeft
  · have hcount : countAfter n e = n + 1 := if_neg ha
    have htemporaries : temporaries n (e :: es) =
        (freshName (n + 1), e) :: temporaries (n + 1) es := if_neg ha
    have hself : standIn n e = mkVar (freshName (n + 1)) := if_neg ha
    obtain ⟨n2, hc⟩ := h.chains
    have hn := h.le
    rw [htemporaries] at hc hn
    rw [List.length_cons] at hn
    -- the temporary holds the value of the operand
    have hbound : ∀ {S1 : Stage} {env1 : Env} {v v' : NamedValue} {j n1 n2 : Nat} {c : NamedExpr},
        S.Later S1 → passing.Related S1 → Agrees n env' env1 →
        passing.Same S1.links v v' → S1.right.slot j = .ready v' →
        Chains k (temporaries (n + 1) es) body n1 c n2 →
        n + 1 + (temporaries (n + 1) es).length ≤ n1 →
        S1.Meets passing N M (fun n => F n v)
          (fun m => evalAs none m ([⟨(freshName (n + 1)).name, j⟩] :: env1) c) := by
      intro S1 env1 v v' j n1 n2 c hlater hS1 hagrees hv hslot hc hn
      have h1 : Passed S env' n e S1 ([⟨(freshName (n + 1)).name, j⟩] :: env1) (some v) := by
        refine ⟨hlater, hagrees.trans (.cons (Nat.lt_succ_self n) j env1), ?_⟩
        rw [hcount, hself]
        exact .read (known_freshName le_rfl) (find?_cons_of_name (f := [])) hslot hv
      exact hnext h1 (h.rest h1 hS1 (by rwa [hcount]) (by rwa [hcount]))
    cases hc with
    | @simple _ _ r _ c' _ _ _ n3 _ hs hr hc' =>
      refine .right rfl (.congr_right (fun m => outcome_mkLet _ _ _ _ _ _) ?_)
      have hlater1 := S.later_newFrameRight [(freshName (n + 1)).name]
      have hsize : S.right.slots.size <
          (S.newFrameRight [(freshName (n + 1)).name]).right.slots.size := by
        rw [Stage.newFrameRight, Store.size_newFrame]
        exact Nat.lt_succ_self _
      refine tracks_of_reshapes hr hs h.original.1 N (M - 1) (S.newFrameRight _) env env' _ _ le_rfl
        (Stage.related_newFrameRight h.related _) (h.envs.mono hlater1.grows)
        (fun S' v v' hlater hS' hv => ?_)
      have hfree := hlater.notMem_right hsize (fun i => h.related.slot_notMem_right le_rfl i)
      have hslot := S'.slot_fillRight (Nat.lt_of_lt_of_le hsize hlater.right.size) v'
      refine .congr_right (fun m => outcome_bind_of_ok _ (outcome_modify _ _)) ?_
      have hmeets := hbound ((hlater1.trans hlater).setRight le_rfl _)
        (Stage.related_fillRight hS' hfree v') (.refl n env') hv hslot hc'
        (Nat.le_trans (by omega) hr.le)
      exact hmeets.mono le_rfl (Nat.sub_le M 1)
    | @call _ _ rest _ _ _ _ _ n3 _ hs hr hc' =>
      refine h.sends e List.mem_cons_self hs _ _ _ _ hc' N M S env env' F hB h.related h.envs
        (.map (fun env1 hagrees => ?_))
      intro S' v v' j hlater hS' hv hj hslot _
      have hle : n ≤ n3 := Nat.le_trans (by omega) hr.le
      exact hbound hlater hS' (hagrees.mono hle) hv hslot hr (by omega)

/-- Operands whose values are not asked for: if the expression that uses their stand-ins never
succeeds, neither does the chain. -/
theorem chains_never (h : Pending B k body S0 S env env' n es n1 c) (hB : M ≤ B)
    (hdead : Dead M k body S0 S env' n es (fun _ => True)) (m : Nat) (hm : m < M) :
    ¬ Succeeds (evalAs none m env' c) S.right := by
  induction es generalizing n n1 c S env' m with
  | nil => exact hdead h.evaluated trivial m hm
  | cons e es ih =>
    -- what is left to show once the operand stands for itself or is bound
    have hrest : ∀ {S1 env1 o n1 c}, Passed S env' n e S1 env1 o →
        Pending B k body S0 S1 env env1 (countAfter n e) es n1 c →
        ∀ m, m < M → ¬ Succeeds (evalAs none m env1 c) S1.right :=
      fun h1 h => ih h (fun h' => hdead (h1.cons h'))
    by_cases ha : e.isAtomic = true
    · obtain ⟨S1, o, hright, h1, hpending, -⟩ := h.atomic ha
      rw [← hright]
      exact hrest h1 hpending m hm
    · -- a run that evaluates the operand and then fails
      have hmeets : S.Meets passing 0 M
          (fun n => evalAs none n env e.expand >>= fun _ => failure n)
          (fun m => evalAs none m env' c) :=
        meets_operand (F := fun n _ => failure n) h (by omega) (fun ha' => absurd ha' ha)
          (fun h1 h => .of_fails (fails_failure _) (hrest h1 h))
      refine hmeets.not_succeeds (fun m => ?_) not_excused m hm
      rintro ⟨v, s, hok⟩
      obtain ⟨_, _, _, hthrow⟩ := outcome_bind_ok.mp hok
      cases hthrow

/-- The first of the operands that are left, with all of them in view: if it has no value, the
others are evaluated on the right for nothing. -/
theorem meets_firstOperand (h : Pending B k body S0 S env env' n (e :: es) n1 c)
    (hB : N + M ≤ B) (hdead : Dead M k body S0 S env' n (e :: es) (none ∈ ·))
    (hnext : ∀ {S1 env1 v n1 c}, Passed S env' n e S1 env1 (some v) →
      Pending B k body S0 S1 env env1 (countAfter n e) es n1 c →
      S1.Meets passing N M (fun n => F n v) (fun m => evalAs none m env1 c)) :
    S.Meets passing N M (fun n => evalAs none n env e.expand >>= F n)
      (fun m => evalAs none m env' c) := by
  refine meets_operand h hB (fun ha hright h1 hrest => ?_) hnext
  rw [← hright]
  exact chains_never hrest (by omega) (fun h _ => hdead (h1.cons h) List.mem_cons_self)

/-- Operands that are bound one after the other to slots on the left. Their slots were not there
at the stage `S0` and are not linked. -/
theorem meets_bindOperands {X : Nat → Eval Ident Unit NamedValue}
    (h : Pending B k body S0 S env env' n es n1 c) (hB : N + M ≤ B)
    (hlen : xs.length = es.length) {a : Nat} (ha : S0.left.slots.size ≤ a)
    (hsize : a + xs.length ≤ S.left.slots.size)
    (hfree : ∀ i, a ≤ i → i < a + xs.length → ∀ j, .slot i j ∉ S.links)
    (hnext : ∀ {S' env1 vs n' c},
      Evaluated k body S0 S env' n es S' env1 (vs.map some) n' c → Row S'.left a vs →
      (∀ i, i < a → S'.left.slot i = S.left.slot i) →
      S'.Meets passing N M X (fun m => evalAs none m env1 c))
    (hdead : Dead M k body S0 S env' n es (none ∈ ·)) :
    S.Meets passing N M
      (fun n => Eval.bindEach (watched none n) .eager env (frameAt a xs) (expandAll es) >>=
        fun _ => X n) (fun m => evalAs none m env' c) := by
  induction es generalizing n n1 c S env' xs a with
  | nil =>
    cases xs with
    | nil =>
      exact @hnext S env' [] n1 c h.evaluated trivial (fun _ _ => rfl)
    | cons => cases hlen
  | cons e es ih =>
    cases xs with
    | nil => cases hlen
    | cons y xs =>
    simp only [List.length_cons, Nat.add_right_cancel_iff] at hlen
    simp only [List.length_cons] at hsize hfree
    simp only [frameAt, expandAll, Eval.bindEach_cons _ _ Machine.isEager_eager, bind_assoc]
    refine meets_firstOperand h hB hdead (fun {S1 env1 v n1 c} h1 hrest => ?_)
    have hlater1 := h1.later
    have hfree1 : ∀ i, a ≤ i → i < a + (xs.length + 1) → ∀ j, .slot i j ∉ S1.links := by
      intro i hi hlt j hl
      rcases hlater1.slots hl with hold | ⟨hge, -⟩
      · exact hfree i hi hlt j hold
      · omega
    have hsize1 := hlater1.left.size
    have hst1 := h1.stands.onward ((Stage.Later.refl S1).onward.fillLeft a v) (.refl _ _)
    have honward1 : S.Onward (S1.fillLeft a v) := hlater1.onward.fillLeft a v
    have hfilled : ∀ i, i < a + 1 → (S1.fillLeft a v).left.slot i =
        if i = a then .ready v else S.left.slot i := by
      intro i hi
      rw [Stage.fillLeft, Store.slot_setSlot]
      by_cases heq : i = a
      · rw [if_pos heq, if_pos ⟨heq.symm, by omega⟩]
      · rw [if_neg heq, if_neg (fun hc => heq hc.1.symm), hlater1.left.slot i (by omega)]
    refine .congr_left (fun m => outcome_bind_of_ok _ (outcome_modify _ _)) ?_
    have hfilled1 :
        Pending B k body S0 (S1.fillLeft a v) env env1 (countAfter n e) es n1 c :=
      { hrest with
        later := hrest.later.setLeft ha _
        related := Stage.related_fillLeft hrest.related (hfree1 a le_rfl (by omega)) v }
    refine ih hfilled1 hlen (by omega) ?_ (fun i hi hlt => hfree1 i (by omega) (by omega)) ?_
      (fun h hnone => hdead (.cons honward1 h1.agrees hst1 h) (List.mem_cons_of_mem _ hnone))
    · rw [Stage.fillLeft, Store.size_setSlot]
      omega
    · intro S' env2 vs n' c h hrow hbelow
      refine @hnext S' env2 (v :: vs) n' c (.cons honward1 h1.agrees hst1 h) ⟨?_, hrow⟩
        (fun i hi => ?_)
      · rw [hbelow a (by omega), hfilled a (by omega), if_pos rfl]
      · rw [hbelow i (by omega), hfilled i (by omega), if_neg (by omega)]

end

end Conversion

end Mapling
