import Mapling.Proofs.Arena.Simulation

/-! # The operations of a run

Messages, operators and primitives in an arena follow those of the evaluator. Each lemma takes
operands whose cells represent the operands of the evaluator; where an operation evaluates
expressions, evaluating these is known to follow (`EvaluatorsFollow`). -/

namespace Mapling

/-- The result in the arena is the cell of the result of the evaluator. -/
def Represented : Post Nat (Value Address Layout) := fun ω _ addr _ v => Rep ω v addr

def SameResult {α : Type} : Post α α := fun _ _ x _ y => x = y

def Value.truth? {V L : Type} : Value V L → Option Bool
  | .bool b => some b
  | _ => none

theorem ArenaEval.outcome_read {α : Type} (f : Arena → Except ArenaError α) {r : Run} {x : α}
    (h : f r.arena = .ok x) : outcome (read f) r = some (.ok x, r) := by
  rw [read, outcome_bind_of_ok _ (outcome_get r), h]
  rfl

theorem ArenaEval.outcome_shown (n addr : Nat) (r : Run) : outcome (shown n addr) r =
    match r.arena.decode n addr with
    | none => none
    | some (.error _, _) => some (.ok ("@" ++ toString addr), r)
    | some (.ok v, d) => (v.text d.store n).map (fun t => (.ok t, r)) := by
  rw [shown, outcome_bind_of_ok _ (outcome_get r)]
  rcases r.arena.decode n addr with _ | ⟨_ | v, d⟩
  · rfl
  · rfl
  · dsimp only
    cases v.text d.store n <;> rfl

/-- Evaluating an expression in an arena follows evaluating it without its numbers. -/
def EvaluatorsFollow (forms : List (Nat × Form)) (m : Machine) (n : Nat)
    (aev : Nat → ArenaEvaluator) (ev : Evaluator Address Layout) : Prop :=
  ∀ ω r s env link e, Matches forms m ω r s → EnvRep ω env link → Expr.forms e ⊆ forms →
    Follows forms m n ω s r s (fun k => aev k link e) (ev m env e.unsited) Represented

section

variable {forms : List (Nat × Form)} {m : Machine} {n : Nat} {ω : World}
  {s : Store Address Layout} {r : Run} {v w : Value Address Layout} {addr x y : Nat}

section

variable (h : Matches forms m ω r s)
include h

theorem Matches.outcome_tag (hv : Rep ω v addr) :
    outcome (ArenaEval.tag addr) r = some (.ok (some v.tag), r) := by
  have hread : r.arena.tagWord addr = .ok v.tag.word := Arena.word_eq (h.words_tag hv)
  rw [ArenaEval.tag, outcome_bind_of_ok _ (ArenaEval.outcome_read _ hread), Tag.ofWord?_word]
  rfl

/-! ## Unique cells -/

theorem Matches.reserved {i : Nat} {w : Int} (hi : Cell.reserved[i]? = some w) :
    ω[i]? = some (.fixed w) := by
  refine World.getElem?_mono h.unique ?_
  rw [List.getElem?_map, hi]
  rfl

theorem Matches.rep_bool (b : Bool) : Rep ω (.bool b) (Cell.boolAddr b) :=
  .bool (h.reserved (by cases b <;> rfl))

theorem Matches.rep_null : Rep ω .null Cell.nullAddr :=
  .null (h.reserved rfl)

theorem Matches.rep_unit : Rep ω .unit Cell.unitAddr :=
  .unit (h.reserved rfl)

theorem Matches.rep_prim (p : Prim) : Rep ω (.prim p) (Cell.primAddr p) :=
  .prim (h.reserved (by cases p <;> rfl))

/-- Only the booleans have their cells at the addresses of the booleans. -/
theorem Matches.truth?_eq (hv : Rep ω v addr) : ArenaEval.truth? addr = v.truth? := by
  have hbool : ∀ b, addr = Cell.boolAddr b → v = .bool b := by
    rintro b rfl
    have htag := h.tag_eq hv (h.rep_bool b)
    cases v with
    | bool b' =>
      cases htag
      rfl
    | _ => cases htag
  unfold ArenaEval.truth?
  split
  · rename_i htrue
    rw [hbool true htrue]
    rfl
  · split
    · rename_i hfalse
      rw [hbool false hfalse]
      rfl
    · rename_i htrue hfalse
      cases hv with
      | @bool b => cases b <;> contradiction
      | _ => rfl

end

namespace Follows

/-! ## Messages -/

section

variable (h : Matches forms m ω r s)
include h

/-- A cell is shown as the value it represents. Decoding may need a larger number than writing
the value. -/
theorem shown (hv : Rep ω v addr) :
    Follows forms m n ω s r s (fun k => ArenaEval.shown k addr) (Eval.shown n v) SameResult := by
  obtain ⟨v', d, ⟨N, hN⟩, hdecode, hlooks⟩ := h.decode hv
  constructor
  · intro o ho
    rw [ArenaEval.outcome_shown] at ho
    rcases hd : r.arena.decode n addr with _ | o1
    · rw [hd] at ho
      cases ho
    · obtain rfl := hdecode n o1 hd
      rw [hd] at ho
      obtain ⟨t, ht, rfl⟩ := Option.map_eq_some_iff.mp ho
      refine .inr ⟨(.ok t, s), ?_, .ok (.refl _ _) h rfl⟩
      rw [Eval.outcome_shown, ← hlooks.text_eq, ht]
      rfl
  · intro o' ho'
    rw [Eval.outcome_shown] at ho'
    obtain ⟨t, ht, rfl⟩ := Option.map_eq_some_iff.mp ho'
    refine ⟨(.ok t, r), ⟨max N n, fun k hk => ?_⟩, .inr (.ok (.refl _ _) h rfl)⟩
    have hk' := hN k (by omega)
    have htext : v'.text d.store k = some t := by
      rw [hlooks.text_eq]
      exact (Value.text_mono s (by omega)).1 v t ht
    dsimp only at hk' ⊢
    rw [ArenaEval.outcome_shown, hk']
    dsimp only
    rw [htext]
    rfl

theorem shownFault {α β : Type} {Q : Post α β} (hv : Rep ω v addr) (e : String → EvalError) :
    Follows forms m n ω s r s (fun k => do ArenaEval.fault (e (← ArenaEval.shown k addr)))
      (do throw (e (← Eval.shown n v))) Q := by
  refine bind (.refl _ _) (shown h hv) ?_
  rintro _ _ t _ _ _ _ rfl
  exact fault (e t)

theorem mismatch {α β : Type} {Q : Post α β} (hv : Rep ω v addr) (op : String) :
    Follows forms m n ω s r s (fun k => ArenaEval.mismatch k op addr) (Eval.mismatch n op v) Q :=
  shownFault h hv (.typeMismatch op)

/-! ## Literals -/

theorem allocInt (k : Int) :
    Follows forms m n ω s r s (fun _ => ArenaEval.allocInt k) (Pure.pure (.int k)) Represented := by
  obtain ⟨ω', hm, hlater, hrep⟩ := h.newInt k
  exact make (ArenaEval.outcome_alloc _ r) rfl hlater hm hrep

/-! ## Operators on values -/

/-- The unary operators of the arena follow those of the evaluator. -/
theorem unary (hv : Rep ω v addr) (op : UnaryOp) :
    Follows forms m n ω s r s (fun k => ArenaEval.unary k op addr) (Eval.unary n op v)
      Represented := by
  unfold ArenaEval.unary
  refine left (h.outcome_tag hv) ?_
  cases op with
  | neg =>
    cases v with
    | int i =>
      refine left (ArenaEval.outcome_read _ (h.field_int hv)) ?_
      change Follows forms m n ω s r s _ (do return Value.int (← Eval.ofExcept (negate i))) _
      cases negate i with
      | ok k => exact allocInt h k
      | error e => exact fault e
    | _ => exact mismatch h hv _
  | not =>
    cases v with
    | bool b => exact pure (.refl _ _) h (h.rep_bool _)
    | _ => exact mismatch h hv _
  | deref =>
    cases v with
    | ref i =>
      obtain ⟨x, hx, hrep⟩ := h.fieldAddr_ref hv
      have hread := ArenaEval.outcome_read (fun a => a.fieldAddr addr Cell.refReferent) hx
      exact make (.inr hread) rfl (.refl _ _) h hrep
    | _ => exact mismatch h hv _
  | ref =>
    obtain ⟨ω', hm, hlater, hrep⟩ := h.newRef hv
    exact make (ArenaEval.outcome_alloc _ r) rfl hlater hm hrep

theorem operand_int {k : Int} (hv : Rep ω (.int k) addr) (op : BinaryOp) (n : Nat) :
    outcome (ArenaEval.operand n op addr) r = some (.ok k, r) := by
  rw [ArenaEval.operand, outcome_bind_of_ok _ (h.outcome_tag hv)]
  exact ArenaEval.outcome_read (fun a => a.field addr Cell.intValue) (h.field_int hv)

/-- An operand that is no integer. -/
theorem operand (hv : Rep ω v addr) (hint : v.tag ≠ .int) (op : BinaryOp) :
    Follows forms m n ω s r s (fun k => ArenaEval.operand k op addr)
      (Eval.mismatch n op.symbol v : Eval Address Layout (Value Address Layout))
      (fun _ _ _ _ _ => False) := by
  unfold ArenaEval.operand
  refine left (h.outcome_tag hv) ?_
  cases v with
  | int k => exact absurd rfl hint
  | _ => exact mismatch h hv op.symbol

theorem arithmetic (hv : Rep ω v x) (hw : Rep ω w y) (op : BinaryOp) :
    Follows forms m n ω s r s (fun k => ArenaEval.arithmetic k op x y)
      (Eval.arithmetic n op v w) Represented := by
  unfold ArenaEval.arithmetic
  cases v with
  | int i =>
    refine leftEach (operand_int h hv op) ?_
    cases w with
    | int j =>
      refine leftEach (operand_int h hw op) ?_
      unfold Eval.arithmetic
      dsimp only
      cases op.onInts i j with
      | ok result =>
        cases result with
        | int k => exact allocInt h k
        | bool b => exact pure (.refl _ _) h (h.rep_bool b)
      | error e => exact fault e
    | _ => exact failing (operand h hw (by simp [Value.tag]) op) _ _
  | _ => exact failing (operand h hv (by simp [Value.tag]) op) _ _

/-! ## Equality -/

/-- A cell that represents two values shows that they are equal. -/
theorem equals_self (hv : Rep ω v x) (hw : Rep ω w x) (ev : Evaluator Address Layout) (n : Nat) :
    outcome (Eval.equals ev (n + 1) v w) s = some (.ok true, s) := by
  have htag := h.tag_eq hv hw
  have hatom : Eval.sameAtom v w = true →
      outcome (Pure.pure (Eval.sameAtom v w) : Eval Address Layout Bool) s =
        some (.ok true, s) := by
    intro hsame
    rw [hsame]
    rfl
  cases hv with
  | int _ hv =>
    cases hw with
    | int _ hw =>
      cases hv.symm.trans hw
      exact hatom (beq_self_eq_true _)
    | _ => cases htag
  | @bool b =>
    cases w with
    | bool b' =>
      cases htag
      exact hatom (beq_self_eq_true _)
    | _ => cases htag
  | null =>
    cases w with
    | null => exact hatom rfl
    | _ => cases htag
  | unit =>
    cases w with
    | unit => exact hatom rfl
    | _ => cases htag
  | @prim p =>
    cases w with
    | prim q =>
      cases htag
      exact hatom (beq_self_eq_true _)
    | _ => cases htag
  | pair _ hh ht =>
    cases hw with
    | pair _ hh' ht' =>
      cases hh.symm.trans hh'
      cases ht.symm.trans ht'
      rw [Eval.equals, Eval.equalsBy, if_pos ⟨rfl, rfl⟩]
      rfl
    | _ => cases htag
  | ref _ hi =>
    cases hw with
    | ref _ hj =>
      cases hi.symm.trans hj
      exact hatom (beq_self_eq_true _)
    | _ => cases htag
  | closure hi =>
    cases hw with
    | closure hj =>
      cases hi.symm.trans hj
      exact hatom (beq_self_eq_true _)
    | _ => cases htag

/-- Two cells represent different atoms, except that an integer may have many cells. -/
theorem sameAtom_eq_false (hv : Rep ω v x) (hw : Rep ω w y) (hne : x ≠ y) (hint : v.tag ≠ .int) :
    Eval.sameAtom v w = false := by
  have howner : ∀ {p : Nat} {role : Role}, ω[p]? = some role → ω.owner? p = role.owner := by
    intro p role hp
    rw [World.owner?, hp]
    rfl
  cases hv with
  | int => exact absurd rfl hint
  | @bool b =>
    cases hw with
    | @bool b' => exact beq_false_of_ne (fun heq => hne (by rw [heq]))
    | _ => rfl
  | null =>
    cases hw with
    | null => exact absurd rfl hne
    | _ => rfl
  | unit =>
    cases hw with
    | unit => exact absurd rfl hne
    | _ => rfl
  | @prim p =>
    cases hw with
    | @prim q => exact beq_false_of_ne (fun heq => hne (by rw [heq]))
    | _ => rfl
  | pair => cases hw <;> rfl
  | ref _ hi =>
    cases hw with
    | ref _ hj =>
      refine beq_false_of_ne (fun heq => hne ?_)
      subst heq
      exact Nat.add_right_cancel (h.once _ _ _ (howner hi) (howner hj))
    | _ => rfl
  | closure hi =>
    cases hw with
    | closure hj =>
      refine beq_false_of_ne (fun heq => hne ?_)
      subst heq
      exact h.once _ _ _ (howner hi) (howner hj)
    | _ => rfl

theorem pair_ne {i j i' j' : Nat} (hv : Rep ω (.pair i j) x) (hw : Rep ω (.pair i' j') y)
    (hne : x ≠ y) : ¬ (i = i' ∧ j = j') := by
  rintro ⟨rfl, rfl⟩
  cases hv with
  | pair _ hi =>
    cases hw with
    | pair _ hi' =>
      have hplace := h.once (x + Cell.pairHead) (y + Cell.pairHead) (.slot i)
        (by rw [World.owner?, hi]; rfl) (by rw [World.owner?, hi']; rfl)
      exact hne (Nat.add_right_cancel hplace)

end

/-- Comparing two cells gives what comparing the values that they represent gives. -/
theorem equals (ev : Evaluator Address Layout) (h : Matches forms m ω r s) (hv : Rep ω v x)
    (hw : Rep ω w y) : Follows forms m n ω s r s (fun k => ArenaEval.equals k x y)
      (Eval.equals ev n v w) SameResult := by
  induction n generalizing ω r s v w x y with
  | zero => exact exhausted rfl (by rw [Eval.equals, Eval.equalsBy, Eval.outcome_exhausted])
  | succ n ih =>
    refine succ ?_
    simp only [ArenaEval.equals]
    by_cases hxy : x = y
    · subst hxy
      simp only [if_true]
      exact of_outcomes (fun _ => rfl) (equals_self h hv hw ev n) (.inr (.ok (.refl _ _) h rfl))
    · simp only [if_neg hxy]
      refine left (h.outcome_tag hv) (left (h.outcome_tag hw) ?_)
      have hatom : v.tag ≠ .int → Follows forms m n ω s r s (fun _ => Pure.pure false)
          (Pure.pure (Eval.sameAtom v w)) SameResult := by
        intro hint
        rw [sameAtom_eq_false h hv hw hxy hint]
        exact pure (.refl _ _) h rfl
      cases v with
      | int a =>
        cases w with
        | int b =>
          refine left (ArenaEval.outcome_read _ (h.field_int hv)) ?_
          refine left (ArenaEval.outcome_read _ (h.field_int hw)) ?_
          exact pure (.refl _ _) h rfl
        | _ => exact pure (.refl _ _) h rfl
      | pair i j =>
        cases w with
        | pair i' j' =>
          obtain ⟨⟨a, va, ha, -, hia, hva⟩, -⟩ := h.fieldAddr_pair hv
          obtain ⟨⟨b, vb, hb, -, hib, hvb⟩, -⟩ := h.fieldAddr_pair hw
          rw [Eval.equals, Eval.equalsBy, if_neg (pair_ne h hv hw hxy)]
          refine left (ArenaEval.outcome_read _ ha) (left (ArenaEval.outcome_read _ hb) ?_)
          refine right (Eval.outcome_force hia _) (right (Eval.outcome_force hib _) ?_)
          refine bind (.refl _ _) (ih h hva hvb) ?_
          rintro ω' r' same s' _ hlater h' rfl
          cases same with
          | false => exact pure hlater h' rfl
          | true =>
            have hv' := hv.mono hlater.grows
            have hw' := hw.mono hlater.grows
            obtain ⟨-, ⟨c, vc, hc, -, hjc, hvc, hlistc⟩⟩ := h'.fieldAddr_pair hv'
            obtain ⟨-, ⟨d, vd, hd, -, hjd, hvd, hlistd⟩⟩ := h'.fieldAddr_pair hw'
            have hforce := Eval.outcome_forceTail ev hjc n
            have hforce' := Eval.outcome_forceTail ev hjd n
            rw [if_pos hlistc] at hforce
            rw [if_pos hlistd] at hforce'
            refine left (ArenaEval.outcome_read _ hc) (left (ArenaEval.outcome_read _ hd) ?_)
            exact right hforce (right hforce' ((ih h' hvc hvd).rebase hlater))
        | _ => exact hatom (by simp [Value.tag])
      | _ => cases w <;> exact hatom (by simp [Value.tag])

/-! ## Operators on expressions -/

variable {aev : Nat → ArenaEvaluator} {ev : Evaluator Address Layout} {env : Env}
  {link : Option Nat}
variable {e1 e2 : SitedExpr}

theorem logical (hev : EvaluatorsFollow forms m n aev ev) (h : Matches forms m ω r s)
    (henv : EnvRep ω env link) (h1 : e1.forms ⊆ forms) (h2 : e2.forms ⊆ forms) (op : BinaryOp)
    (decisive : Bool) :
    Follows forms m n ω s r s (fun k => ArenaEval.logical k (aev k) link op decisive e1 e2)
      (Eval.logical n ev m env op decisive e1.unsited e2.unsited) Represented := by
  refine bind (.refl _ _) (hev ω r s env link e1 h henv h1) ?_
  intro ω1 r1 x s1 v hlater1 hm1 hv
  simp only [hm1.truth?_eq hv]
  cases v with
  | bool b =>
    dsimp only [Value.truth?]
    by_cases hb : b = decisive
    · simp only [if_pos hb]
      exact pure hlater1 hm1 hv
    · simp only [if_neg hb]
      refine bind hlater1 (hev ω1 r1 s1 env link e2 hm1 (henv.mono hlater1.grows) h2) ?_
      intro ω2 r2 y s2 w hlater2 hm2 hw
      simp only [hm2.truth?_eq hw]
      cases w with
      | bool b' => exact pure (hlater1.trans hlater2) hm2 hw
      | _ => exact (mismatch hm2 hw _).rebase (hlater1.trans hlater2)
  | _ => exact (mismatch hm1 hv _).rebase hlater1

theorem assign (hev : EvaluatorsFollow forms m n aev ev) (h : Matches forms m ω r s)
    (henv : EnvRep ω env link) (h1 : e1.forms ⊆ forms) (h2 : e2.forms ⊆ forms) :
    Follows forms m n ω s r s (fun k => ArenaEval.assign k (aev k) link e1 e2)
      (Eval.assign n ev m env e1.unsited e2.unsited) Represented := by
  refine bind (.refl _ _) (hev ω r s env link e1 h henv h1) ?_
  intro ω1 r1 x s1 v hlater1 hm1 hv
  refine left (hm1.outcome_tag hv) ?_
  cases v with
  | ref i =>
    refine bind hlater1 (hev ω1 r1 s1 env link e2 hm1 (henv.mono hlater1.grows) h2) ?_
    intro ω2 r2 y s2 w hlater2 hm2 hw
    obtain ⟨hwrite, hm3⟩ := hm2.assign (hv.mono hlater2.grows) hw
    have hlater := (hlater1.trans hlater2).trans (.store (Owner.within_setCell i w) ω2)
    exact left hwrite (right rfl (pure hlater hm3 hm3.rep_unit))
  | _ => exact (mismatch hm1 hv _).rebase hlater1

/-- The binary operators of the arena follow those of the evaluator. -/
theorem binary (hev : EvaluatorsFollow forms m n aev ev) (h : Matches forms m ω r s)
    (henv : EnvRep ω env link) (h1 : e1.forms ⊆ forms) (h2 : e2.forms ⊆ forms) (op : BinaryOp) :
    Follows forms m n ω s r s (fun k => ArenaEval.binary k (aev k) link op e1 e2)
      (Eval.binary (Eval.equals ev n) n ev m env op e1.unsited e2.unsited) Represented := by
  have hoperands : ∀ {f : Nat → Nat → Nat → ArenaEval Nat}
      {g : Value Address Layout → Value Address Layout →
        Eval Address Layout (Value Address Layout)},
      (∀ ω r s v w x y, Matches forms m ω r s → Rep ω v x → Rep ω w y →
        Follows forms m n ω s r s (fun k => f k x y) (g v w) Represented) →
      Follows forms m n ω s r s
        (fun k => do let x ← aev k link e1; let y ← aev k link e2; f k x y)
        (do let v ← ev m env e1.unsited; let w ← ev m env e2.unsited; g v w) Represented := by
    intro f g hfg
    refine bind (.refl _ _) (hev ω r s env link e1 h henv h1) ?_
    intro ω1 r1 x s1 v hlater1 hm1 hv
    refine bind hlater1 (hev ω1 r1 s1 env link e2 hm1 (henv.mono hlater1.grows) h2) ?_
    intro ω2 r2 y s2 w hlater2 hm2 hw
    exact (hfg ω2 r2 s2 v w x y hm2 (hv.mono hlater2.grows) hw).rebase (hlater1.trans hlater2)
  cases op with
  | and | or => exact logical hev h henv h1 h2 _ _
  | assign => exact assign hev h henv h1 h2
  | eq =>
    refine hoperands (fun ω r s v w x y h hv hw => ?_)
    refine bind (.refl _ _) (equals ev h hv hw) ?_
    rintro ω' r' b s' _ hlater hm rfl
    exact pure hlater hm (hm.rep_bool b)
  | ne =>
    refine hoperands (fun ω r s v w x y h hv hw => ?_)
    refine bind (.refl _ _) (equals ev h hv hw) ?_
    rintro ω' r' b s' _ hlater hm rfl
    exact pure hlater hm (hm.rep_bool (!b))
  | _ => exact hoperands (fun ω r s v w x y h hv hw => arithmetic h hv hw _)

/-! ## Primitives -/

/-- What is bound eagerly is evaluated at once. -/
theorem defer {a : Nat → ArenaEval Nat} {e : Expr Address Layout}
    (h : Follows forms m n ω s r s a (ev m env e) Represented) :
    Follows forms m n ω s r s a (Eval.defer ev m env .value e)
      (fun ω _ addr _ x => ∃ v, x = .ready v ∧ Rep ω v addr) := by
  have hready := h.mapRight (g := fun v => Slot.ready v)
    (P := fun ω _ addr _ x => ∃ v, x = .ready v ∧ Rep ω v addr)
    (fun _ _ _ _ y hv => ⟨y, rfl, hv⟩)
  unfold Eval.defer
  split <;> exact hready

theorem cons (hm : m.config.IsEager) (hev : EvaluatorsFollow forms m n aev ev)
    (h : Matches forms m ω r s) (henv : EnvRep ω env link) (h1 : e1.forms ⊆ forms)
    (h2 : e2.forms ⊆ forms) :
    Follows forms m n ω s r s (fun k => ArenaEval.cons k (aev k) link e1 e2)
      (Eval.cons n ev m env e1.unsited e2.unsited) Represented := by
  rw [Eval.cons, hm.cons]
  refine bind (.refl _ _) (defer (hev ω r s env link e1 h henv h1)) ?_
  rintro ω1 r1 x s1 _ hlater1 hm1 ⟨v, rfl, hv⟩
  refine bind hlater1 (defer (hev ω1 r1 s1 env link e2 hm1 (henv.mono hlater1.grows) h2)) ?_
  rintro ω2 r2 y s2 _ hlater2 hm2 ⟨w, rfl, hw⟩
  have hlater := hlater1.trans hlater2
  refine left (hm2.outcome_tag hw) ?_
  dsimp only
  rw [Option.any_some, Value.isList_tag]
  by_cases hlist : w.isList = true
  · simp only [if_pos hlist]
    obtain ⟨ω3, hm3, hlater3, hrep⟩ := hm2.newPair (hv.mono hlater2.grows) hw hlist
    exact make (ArenaEval.outcome_alloc _ r2) rfl (hlater.trans hlater3) hm3 hrep
  · simp only [if_neg hlist]
    exact (shownFault hm2 hw (.notAList Prim.cons.name)).rebase hlater

theorem select (h : Matches forms m ω r s) (hv : Rep ω v addr) (p : Prim) {place : Nat}
    {part : Nat → Nat → Eval Address Layout (Value Address Layout)}
    (hpart : ∀ i j, v = .pair i j → Follows forms m n ω s r s
      (fun _ => ArenaEval.read (fun a => a.fieldAddr addr place)) (part i j) Represented) :
    Follows forms m n ω s r s (fun k => ArenaEval.select k p place addr)
      (Eval.select n p part v) Represented := by
  unfold ArenaEval.select
  refine left (h.outcome_tag hv) ?_
  cases v with
  | pair i j => exact hpart i j rfl
  | null => exact fault _
  | _ => exact shownFault h hv (.notAList p.name)

/-- A primitive on a cell follows the primitive on the value that it represents. -/
theorem primitive (h : Matches forms m ω r s) (hv : Rep ω v addr) (p : Prim) :
    Follows forms m n ω s r s (fun k => ArenaEval.primitive k p addr)
      (Eval.primitive n ev p v) Represented := by
  unfold ArenaEval.primitive
  refine left (h.outcome_tag hv) ?_
  have hbool : ∀ {b b' : Bool}, b = b' → Follows forms m n ω s r s
      (fun _ => Pure.pure (Cell.boolAddr b)) (Pure.pure (.bool b')) Represented := by
    rintro b _ rfl
    exact pure (.refl _ _) h (h.rep_bool b)
  cases p with
  | isNumber => exact hbool (by cases v <;> rfl)
  | isFunction => exact hbool (Value.isFunction_tag v)
  | isList => exact hbool (Value.isList_tag v)
  | isNull | isCons | isRef => exact hbool (by cases v <;> rfl)
  | arity =>
    cases v with
    | closure id c =>
      refine left (ArenaEval.outcome_read _ (h.arityOf_closure hv).1) ?_
      exact allocInt h _
    | prim q => exact allocInt h _
    | _ => exact mismatch h hv _
  | first =>
    refine select h hv _ ?_
    rintro i j rfl
    obtain ⟨⟨x, w, hx, -, hi, hrep⟩, -⟩ := h.fieldAddr_pair hv
    have hread := ArenaEval.outcome_read (fun a => a.fieldAddr addr Cell.pairHead) hx
    exact make (.inr hread) (Eval.outcome_force hi _) (.refl _ _) h hrep
  | rest =>
    refine select h hv _ ?_
    rintro i j rfl
    obtain ⟨-, ⟨y, w, hy, -, hj, hrep, hlist⟩⟩ := h.fieldAddr_pair hv
    have hread := ArenaEval.outcome_read (fun a => a.fieldAddr addr Cell.pairTail) hy
    have hforce := Eval.outcome_forceTail ev hj n
    rw [if_pos hlist] at hforce
    exact make (.inr hread) hforce (.refl _ _) h hrep
  | cons => exact mismatch h hv _

/-- Applying a primitive in the arena follows applying it in the evaluator. -/
theorem applyPrim (hm : m.config.IsEager) (hev : EvaluatorsFollow forms m n aev ev)
    (h : Matches forms m ω r s) (henv : EnvRep ω env link) (p : Prim) {args : List SitedExpr}
    (hargs : Expr.formsAll args ⊆ forms) :
    Follows forms m n ω s r s (fun k => ArenaEval.applyPrim k (aev k) link p args)
      (Eval.applyPrim n ev m env p (Expr.unsitedAll args)) Represented := by
  have hone : ∀ {e}, args = [e] → Follows forms m n ω s r s
      (fun k => do ArenaEval.primitive k p (← aev k link e))
      (do Eval.primitive n ev p (← ev m env e.unsited)) Represented := by
    rintro e rfl
    have he : e.forms ⊆ forms := fun _ hx => hargs (List.mem_append_left _ hx)
    refine bind (.refl _ _) (hev ω r s env link e h henv he) ?_
    intro ω1 r1 x s1 v hlater hm1 hv
    exact (primitive hm1 hv p).rebase hlater
  rcases args with _ | ⟨e1, _ | ⟨e2, _ | ⟨e3, es⟩⟩⟩
  · cases p <;> exact fault _
  · cases p with
    | cons => exact fault _
    | _ => exact hone rfl
  · cases p with
    | cons =>
      refine cons hm hev h henv (fun _ hx => hargs (List.mem_append_left _ hx)) ?_
      exact fun _ hx => hargs (List.mem_append_right _ (List.mem_append_left _ hx))
    | _ => exact fault _
  · have hlen : (Expr.unsitedAll (e1 :: e2 :: e3 :: es)).length = (e1 :: e2 :: e3 :: es).length :=
      Expr.length_unsitedAll _
    have hfault : ∀ name k, Follows forms m n ω s r s
        (fun _ => ArenaEval.fault (.arityMismatch name k (e1 :: e2 :: e3 :: es).length))
        (throw (.arityMismatch name k (Expr.unsitedAll (e1 :: e2 :: e3 :: es)).length))
        Represented := by
      intro name k
      rw [hlen]
      exact fault _
    cases p <;> exact hfault _ _

end Follows

end

end Mapling
