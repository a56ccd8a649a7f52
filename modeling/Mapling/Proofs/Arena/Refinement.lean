import Mapling.Proofs.Arena.Operations
import Mapling.Proofs.Eval.Residue
import Mathlib

/-! # The arena refines the eager evaluator

Evaluating an expression in an arena follows evaluating it eagerly (`Follows.eval`), one form of
expression after another. A call and a plain definition make their activation after the bound
expressions have been evaluated, the evaluator declares the slots before; a recursive definition
makes both first. From this the whole program follows (`runSitedInArena_refines_evaluate`). -/

namespace Mapling

variable {bs : List Binding} {frame : Frame} {i : Nat} {v : Value Address Layout} {ω0 : World}
  {s0 : Store Address Layout} {a : Nat → ArenaEval Nat}
  {b : Eval Address Layout (Value Address Layout)} {defs : List (Ident × SitedExpr)} {site : Site}
  {body : SitedExpr}

/-- The words are the cells of what the slots of the bindings hold. -/
def Filled (ω : World) (s : Store Address Layout) (bs : List Binding) (ws : List Int) : Prop :=
  List.Forall₂ (fun b w => ∃ v x, s.slot b.slot = .ready v ∧ w = ((x : Nat) : Int) ∧ Rep ω v x)
    bs ws

section

variable {forms : List (Nat × Form)} {m : Machine} {n : Nat} {ω : World}
  {s : Store Address Layout} {r : Run} {aev : Nat → ArenaEvaluator}
  {ev : Evaluator Address Layout} {env : Env} {link : Option Nat}

theorem Filled.slot {ω : World} {s : Store Address Layout} {ws : List Int} (h : Filled ω s bs ws)
    (i : Nat) (b : Binding) (w : Int) (hb : bs[i]? = some b) (hw : ws[i]? = some w) :
    ∃ v x, s.slot b.slot = .ready v ∧ w = ((x : Nat) : Int) ∧ Rep ω v x := by
  obtain ⟨hlt, rfl⟩ := List.getElem?_eq_some_iff.mp hb
  obtain ⟨hlt', rfl⟩ := List.getElem?_eq_some_iff.mp hw
  exact List.Forall₂.get h hlt hlt'

namespace Matches

/-- A new frame has no words yet. -/
theorem newFrame (h : Matches forms m ω r s) (names : List String) :
    Matches forms m ω r (s.newFrame names).2 ∧ ω.Later s ω (s.newFrame names).2 ∧
      ∀ b ∈ (s.newFrame names).1, b.slot < (s.newFrame names).2.slots.size ∧
        ∀ p, ω.owner? p ≠ some (.slot b.slot) := by
  refine ⟨h.store (fun _ o _ => Owner.same_newFrame names o) (Owner.within_newFrame names)
    (h.eager.newFrame names) rfl, .store (Owner.within_newFrame names) ω, fun b hb => ?_⟩
  obtain ⟨hge, hlt⟩ := Store.size_le_slot_newFrame hb
  refine ⟨by rw [Store.size_newFrame]; exact hlt, h.free_of_new ?_⟩
  exact Nat.not_lt.mpr hge

/-- Writing the value of a definition into its slot. -/
theorem initialise (h : Matches forms m ω r s) {addr x : Nat} {b : Binding}
    (henv : EnvRep ω (frame :: env) (some addr)) (hb : frame[i]? = some b) (hv : Rep ω v x) :
    outcome (ArenaEval.write (fun a => a.setField addr (Cell.activationSlots + i) x)) r =
        some (.ok (), r.setWord (addr + (Cell.activationSlots + i)) x) ∧
      Matches forms m ω (r.setWord (addr + (Cell.activationSlots + i)) x)
        (s.setSlot b.slot (.ready v)) := by
  obtain ⟨-, hend, -⟩ := h.cellEnd_frame henv
  obtain ⟨hlt, -⟩ := List.getElem?_eq_some_iff.mp hb
  cases henv with
  | cons tag link count slots =>
    have hrole := slots i b hb
    rw [Nat.add_assoc] at hrole
    have hplace := h.lt_size hrole
    have hfield := Arena.field_eq hend (by unfold Cell.activationSlots; omega) (by omega)
      (Array.getElem?_eq_getElem hplace)
    exact ⟨ArenaEval.outcome_setField hfield hplace, h.setSlot hrole hv⟩

/-- Both sides count the same depth. -/
theorem setDepth (h : Matches forms m ω r s) (d : Nat) :
    Matches forms m ω { r with depth := d } (s.setDepth m d) where
  size := h.size
  holds := h.holds
  once := h.once
  within := h.within
  unique := h.unique
  eager := h.eager
  depth := by
    simp [Store.depth, Store.setDepth, Array.getD_eq_getD_getElem?, h.counter]
  counter := by
    rw [Store.setDepth, Array.size_setIfInBounds]
    exact h.counter
  remembers := ⟨h.remembers.functions, h.remembers.letNames, h.remembers.noNames⟩

end Matches

namespace Follows

/-! ## Bindings -/

variable {es : List SitedExpr} {addr : Nat}

/-- Evaluating the bound expressions of a frame whose slots have no words yet. -/
theorem evalEach (hm : m.config.IsEager) (htidy : ∀ m env e, Tidies (ev m env e))
    (hev : EvaluatorsFollow forms m n aev ev) (h : Matches forms m ω r s) (henv : EnvRep ω env link)
    (hes : Expr.formsAll es ⊆ forms) (hlen : es.length = bs.length)
    (hnodup : (bs.map Binding.slot).Nodup)
    (hfree : ∀ b ∈ bs, b.slot < s.slots.size ∧ ∀ p, ω.owner? p ≠ some (.slot b.slot)) :
    Follows forms m n ω s r s (fun k => ArenaEval.evalEach (aev k) link es)
      (Eval.bindEach ev m env bs (Expr.unsitedAll es))
      (fun ω' _ ws s' _ => Filled ω' s' bs ws) := by
  induction es generalizing bs ω r s with
  | nil =>
    obtain rfl : bs = [] := List.length_eq_zero_iff.mp hlen.symm
    exact pure (.refl _ _) h .nil
  | cons e es ih =>
    obtain ⟨b, bs, rfl⟩ : ∃ b bs', bs = b :: bs' := by
      cases bs with
      | nil => cases hlen
      | cons b bs => exact ⟨b, bs, rfl⟩
    obtain ⟨hb, hnodup⟩ := List.nodup_cons.mp hnodup
    rw [Expr.unsitedAll, Eval.bindEach, hm.binding]
    have he : e.forms ⊆ forms := fun _ hx => hes (List.mem_append_left _ hx)
    refine bind (.refl _ _) (defer (hev ω r s env link e h henv he)) ?_
    rintro ω1 r1 x s1 _ hlater1 hm1 ⟨v, rfl, hv⟩
    refine right rfl ?_
    -- no word stands for the slot yet, so the run does not see that it is written
    have hfree1 : ∀ b' ∈ b :: bs, b'.slot < s1.slots.size ∧
        ∀ p, ω1.owner? p ≠ some (.slot b'.slot) := fun b' hb' =>
      ⟨hlater1.within (.slot b'.slot) (hfree b' hb').1,
        hlater1.free (hfree b' hb').1 (hfree b' hb').2⟩
    obtain ⟨hlt, hnone⟩ := hfree1 b (by simp)
    have hm2 : Matches forms m ω1 r1 (s1.setSlot b.slot (.ready v)) :=
      hm1.store (fun p o hp => Owner.same_setSlot _ o (fun heq => hnone p (heq ▸ hp)))
        (Owner.within_setSlot _ _) (hm1.eager.setSlot _ v) rfl
    have hlater2 := hlater1.trans (.store (Owner.within_setSlot b.slot (.ready v)) ω1)
    have hrest := ih hm2 (henv.mono hlater1.grows)
      (fun _ hx => hes (List.mem_append_right _ hx)) (Nat.succ.inj hlen) hnodup
      (fun b' hb' => ⟨by rw [Store.size_setSlot]; exact (hfree1 b' (by simp [hb'])).1,
        (hfree1 b' (by simp [hb'])).2⟩)
    refine (hrest.rebaseKeep hlater2).mapLeft (f := fun ws => (x : Int) :: ws) ?_
    rintro ω' r' ws s' ⟨⟩ hout ⟨hlater, hfilled⟩
    have hkept := Tidies.bindEach htidy m env bs _ _
      (fun b _ => hm2.eager.ne_forcing b.slot) _ _ hout
    refine .cons ⟨v, x, hkept.ready ?_ hb, rfl, hv.mono hlater.grows⟩ hfilled
    rw [Store.slot_setSlot, if_pos ⟨rfl, hlt⟩]

/-- Evaluating definitions into the slots of an activation. -/
theorem evalInto (hm : m.config.IsEager) (hev : EvaluatorsFollow forms m n aev ev)
    (h : Matches forms m ω r s) (henv : EnvRep ω (frame :: env) (some addr)) (es : List SitedExpr)
    (hes : Expr.formsAll es ⊆ forms) (hlen : es.length = (frame.drop i).length) :
    Follows forms m n ω s r s (fun k => ArenaEval.evalInto (aev k) addr i es)
      (Eval.bindEach ev m (frame :: env) (frame.drop i) (Expr.unsitedAll es))
      (fun _ _ _ _ _ => True) := by
  induction es generalizing i ω r s with
  | nil =>
    rw [List.length_eq_zero_iff.mp hlen.symm]
    exact pure (.refl _ _) h trivial
  | cons e es ih =>
    have hi : i < frame.length := by
      rw [List.length_drop, List.length_cons] at hlen
      omega
    rw [List.drop_eq_getElem_cons hi, Expr.unsitedAll, Eval.bindEach, hm.binding]
    have he : e.forms ⊆ forms := fun _ hx => hes (List.mem_append_left _ hx)
    refine bind (.refl _ _) (defer (hev ω r s _ (some addr) e h henv he)) ?_
    rintro ω1 r1 x s1 _ hlater1 hm1 ⟨v, rfl, hv⟩
    have henv1 := henv.mono hlater1.grows
    obtain ⟨hwrite, hm2⟩ := hm1.initialise henv1 (List.getElem?_eq_getElem hi) hv
    refine left hwrite (right rfl ?_)
    have hlater2 := hlater1.trans (.store (Owner.within_setSlot frame[i].slot (.ready v)) ω1)
    refine (ih hm2 henv1 (fun _ hx => hes (List.mem_append_right _ hx)) ?_).rebase hlater2
    rw [List.length_drop] at hlen ⊢
    rw [List.length_cons] at hlen
    omega

/-! ## Depth -/

theorem outcome_ascend (a : ArenaEval Nat) (r : Run) : outcome (ExceptT.mk do
      let x ← a.run
      modify (fun r => { r with depth := r.depth - 1 })
      return x : ArenaEval Nat) r =
    (outcome a r).map (fun o => (o.1, { o.2 with depth := o.2.depth - 1 })) := by
  simp only [outcome, ExceptT.run_mk, StateT.run_bind]
  rcases a.run.run r with _ | ⟨_, _⟩ <;> rfl

/-- Going up one level at the end. -/
theorem ascend (h : Follows forms m n ω0 s0 r s a b Represented) :
    Follows forms m n ω0 s0 r s
      (fun k => ExceptT.mk do
        let x ← (a k).run
        modify (fun r => { r with depth := r.depth - 1 })
        return x)
      (EvalOps.andThen b (fun _ s => s.setDepth m (s.depth m - 1))) Represented := by
  have hcorr : ∀ {o o'}, Corresponds forms m ω0 s0 Represented o o' →
      Corresponds forms m ω0 s0 Represented (o.1, { o.2 with depth := o.2.depth - 1 })
        (o'.1, o'.2.setDepth m (o'.2.depth m - 1)) := by
    intro o o' hcorr
    cases hcorr with
    | error e => exact .error e _ _
    | @ok ω1 r1 s1 x y later hmatch post =>
      refine .ok (later.trans (.store (fun o ho => ?_) ω1)) ?_ post
      · cases o <;> exact ho
      · dsimp only
        rw [← hmatch.depth]
        exact hmatch.setDepth _
  constructor
  · intro o ho
    rw [outcome_ascend] at ho
    obtain ⟨o1, ho1, rfl⟩ := Option.map_eq_some_iff.mp ho
    rcases h.forth o1 ho1 with hfull | ⟨o', ho', hoo'⟩
    · exact .inl hfull
    · refine .inr ⟨_, ?_, hcorr hoo'⟩
      rw [Eval.outcome_andThen, ho']
      rfl
  · intro o' ho'
    rw [Eval.outcome_andThen] at ho'
    obtain ⟨o1', ho1', rfl⟩ := Option.map_eq_some_iff.mp ho'
    obtain ⟨o, ⟨N, hN⟩, hoo'⟩ := h.back o1' ho1'
    refine ⟨_, ⟨N, fun k hk => ?_⟩, hoo'.imp id hcorr⟩
    have hk' := hN k hk
    dsimp only at hk' ⊢
    rw [outcome_ascend, hk']
    rfl

/-- One level deeper on both sides. -/
theorem nested (h : Matches forms m ω r s)
    (hact : ∀ r' s', Matches forms m ω r' s' → Follows forms m n ω s' r' s' a b Represented) :
    Follows forms m n ω s r s (fun k => ArenaEval.nested m.config.maxDepth (a k))
      (Eval.nested m b) Represented := by
  unfold ArenaEval.nested Eval.nested ArenaEval.enter Eval.enter
  simp only [bind_assoc]
  refine left (outcome_get r) (right (outcome_get s) ?_)
  rw [h.depth]
  by_cases hlt : s.depth m < m.config.maxDepth
  · simp only [if_pos hlt]
    refine left (outcome_modify _ r) (right (outcome_modify _ s) ?_)
    rw [h.depth]
    refine ascend ((hact _ _ (h.setDepth _)).rebase (.store (fun o ho => ?_) ω))
    cases o <;> exact ho
  · simp only [if_neg hlt]
    exact of_outcomes (fun _ => outcome_bind_of_error _ rfl) (outcome_bind_of_error _ rfl)
      (.inr (.error _ r s))

/-! ## Variables -/

/-- The word in the slot that an address stands for represents the value of the variable. -/
theorem lookup (h : Matches forms m ω r s) (henv : EnvRep ω env link) (x : Address) :
    Follows forms m n ω s r s (fun _ => ArenaEval.lookup link x)
      (match Variable.lookup env x with
        | some b => Eval.force ev b.name b.slot
        | none => throw (.unboundVariable (Variable.text x))) Represented := by
  have hlookup : Variable.lookup env x = env.at? x := rfl
  rw [hlookup]
  unfold ArenaEval.lookup
  rcases henv.slotAt h x with
    ⟨hnone, hslot⟩ | ⟨b, frame, w, p, late, hb, hslot, hrole, hw, hname⟩
  · rw [hnone]
    exact left (ArenaEval.outcome_read _ hslot) (fault _)
  · rw [hb]
    refine left (ArenaEval.outcome_read _ hslot) ?_
    dsimp only
    rcases h.holds p _ hrole with ⟨hlate, hs, huninit⟩ | ⟨v, addr, hs, haddr, hv⟩
    · -- the definition has not been evaluated
      obtain rfl : w = Cell.uninit := Option.some.inj (hw.symm.trans huninit)
      simp only [if_true]
      refine left (outcome_get r) ?_
      rw [hname hlate]
      refine of_outcomes (fun _ => rfl) ?_ (.inr (.error _ r s))
      rw [Eval.force, outcome_bind_of_ok _ (outcome_get s), hs]
      rfl
    · obtain rfl : w = (addr : Int) := Option.some.inj (hw.symm.trans haddr)
      have hne : (addr : Int) ≠ Cell.uninit := by
        unfold Cell.uninit
        omega
      simp only [if_neg hne]
      exact of_outcomes (fun _ => rfl) (Eval.outcome_force hs _) (.inr (.ok (.refl _ _) h hv))

/-! ## Calls and definitions -/

/-- Evaluating the bound expressions of a new frame and then making its activation, for which
`known` finds out the index of the names. -/
theorem bindFrame (hm : m.config.IsEager) (htidy : ∀ m env e, Tidies (ev m env e))
    (hev : EvaluatorsFollow forms m n aev ev) (h : Matches forms m ω r s)
    (henv : EnvRep ω env link) (hes : Expr.formsAll es ⊆ forms) {names : List Ident}
    (hlen : es.length = names.length) {outer : Env} {outerLink : Option Nat}
    (houter : EnvRep ω outer outerLink) (known : ArenaEval Nat)
    (hknown : ∀ ω1 r1 s1, ω <+: ω1 → Matches forms m ω1 r1 s1 → ∃ k r2 recorded,
      outcome known r1 = some (.ok k, r2) ∧ Matches forms m ω1 r2 s1 ∧
      r2.arena.code.names[k]? = some recorded) {f : Nat → Nat → ArenaEval Nat}
    {g : Frame → Eval Address Layout (Value Address Layout)}
    (hfg : ∀ ω1 r1 s1 frame addr, Matches forms m ω1 r1 s1 →
      EnvRep ω1 (frame :: outer) (some addr) →
      Follows forms m n ω1 s1 r1 s1 (fun k => f k addr) (g frame) Represented) :
    Follows forms m n ω s r s
      (fun k => do
        let slots ← ArenaEval.evalEach (aev k) link es
        let names ← known
        let addr ← ArenaEval.allocFrame outerLink slots names
        f k addr)
      (do
        let frame ← EvalOps.newFrame (names.map Ident.name)
        Eval.bindEach ev m env frame (Expr.unsitedAll es)
        g frame) Represented := by
  obtain ⟨hm1, hlater1, hfree⟩ := h.newFrame (names.map Ident.name)
  generalize hframe : (s.newFrame (names.map Ident.name)).1 = frame at hfree
  have hslots : frame.map Binding.slot = List.range' s.slots.size names.length := by
    rw [← hframe, Store.map_slot_newFrame, List.length_map]
  have hnodup : (frame.map Binding.slot).Nodup := by
    rw [hslots]
    exact List.nodup_range'
  have hframelen : frame.length = names.length := by
    rw [← List.length_map (f := Binding.slot), hslots, List.length_range']
  refine right (y := frame) (by rw [← hframe]; rfl) ?_
  refine bind hlater1 (evalEach hm htidy hev hm1 henv hes (hlen.trans hframelen.symm) hnodup
    hfree) ?_
  rintro ω2 r2 ws s2 _ hlater2 hm2 hfilled
  obtain ⟨k, r3, recorded, hk, hm3, hrecorded⟩ := hknown ω2 r2 s2 hlater2.grows hm2
  refine left hk ?_
  -- all slots are filled, so no name of the activation will be asked for
  obtain ⟨ω4, hm4, henv4, hlater4⟩ := hm3.newActivation false _ _ (houter.mono hlater2.grows)
    (List.Forall₂.length_eq hfilled).symm hrecorded (absurd · Bool.false_ne_true)
    hnodup
    (fun b hb => ⟨hlater2.within (.slot b.slot) (hfree b hb).1,
      hlater2.free (hfree b hb).1 (hfree b hb).2⟩)
    (fun i b w hb hw => .inr (hfilled.slot i b w hb hw))
  refine leftMake (ArenaEval.outcome_allocFrame _ _ _ r3) ?_
  refine (hfg ω4 _ s2 frame _ hm4 henv4).rebase (hlater4 ω s (hlater1.trans hlater2) ?_)
  intro b hb
  have hmem : b.slot ∈ frame.map Binding.slot := List.mem_map_of_mem hb
  rw [hslots, List.mem_range'_1] at hmem
  exact hmem.1

/-- Calling a closure cell follows calling the closure that it represents. -/
theorem applyClosure (hm : m.config.IsEager) (htidy : ∀ m env e, Tidies (ev m env e))
    (hev : EvaluatorsFollow forms m n aev ev) (h : Matches forms m ω r s)
    (henv : EnvRep ω env link) (f : SitedExpr) {args : List SitedExpr}
    (hargs : Expr.formsAll args ⊆ forms) {id : Nat} {c : Closure Address Layout}
    (hc : Rep ω (.closure id c) addr) :
    Follows forms m n ω s r s
      (fun k => ArenaEval.applyClosure m.config.maxDepth (aev k) link f addr args)
      (Eval.applyClosure ev m env f.unsited c (Expr.unsitedAll args)) Represented := by
  unfold ArenaEval.applyClosure Eval.applyClosure Eval.applyClosureBy
  refine left (ArenaEval.outcome_read _ (h.arityOf_closure hc).2) ?_
  rw [Expr.length_unsitedAll, Expr.text_unsited]
  by_cases hlen : args.length = c.arity
  · obtain ⟨fn, outer, p, k, params, hfn, hbody, hrole, -, hlink, -, houter⟩ :=
      h.functionOf_closure hc
    obtain ⟨-, -, -, hforms⟩ := h.holds p _ hrole
    simp only [ne_eq, hlen, not_true_eq_false, if_false]
    refine left (ArenaEval.outcome_read _ hfn) (left (ArenaEval.outcome_read _ hlink) ?_)
    -- the index of the names is known beforehand
    have hframe := bindFrame hm htidy hev h henv hargs hlen houter (Pure.pure fn.names)
      (f := fun k frame => ArenaEval.nested m.config.maxDepth (aev k (some frame) fn.body))
      (g := fun frame => Eval.nested m (ev m (frame :: c.env) c.body)) ?_ ?_
    · simpa only [pure_bind] using hframe
    · intro ω1 r1 s1 hgrows hm1
      obtain ⟨-, -, hnames, -⟩ := hm1.holds p _ (World.getElem?_mono hgrows hrole)
      exact ⟨fn.names, r1, params, rfl, hm1, hnames⟩
    · intro ω1 r1 s1 frame addr' hm1 henv1
      refine nested hm1 (fun r' s' hm' => ?_)
      rw [← hbody]
      exact hev ω1 r' s' _ _ fn.body hm' henv1 hforms
  · simp only [ne_eq, hlen, not_false_eq_true, if_true]
    exact fault _

/-- Definitions that do not see each other. -/
theorem letPlain (hm : m.config.IsEager) (htidy : ∀ m env e, Tidies (ev m env e))
    (hforms : Form.Identified forms) (hev : EvaluatorsFollow forms m n aev ev)
    (h : Matches forms m ω r s) (henv : EnvRep ω env link) (hdefs : Expr.formsDefs defs ⊆ forms)
    (hbody : body.forms ⊆ forms) (hsite : (site.number, .names (defs.map Prod.fst)) ∈ forms) :
    Follows forms m n ω s r s
      (fun k => do
        let slots ← ArenaEval.evalEach (aev k) link (Expr.defValues defs)
        let names ← modifyGet (fun r => r.namesOf site (defs.map Prod.fst))
        let frame ← ArenaEval.allocFrame link slots names
        aev k (some frame) body)
      (do
        let frame ← EvalOps.newFrame (Expr.defNames (Expr.unsitedDefs defs))
        Eval.bindEach ev m env frame (Expr.defValues (Expr.unsitedDefs defs))
        ev m (frame :: env) body.unsited) Represented := by
  rw [Expr.defNames_unsitedDefs, Expr.defValues_unsitedDefs]
  refine bindFrame hm htidy hev h henv (by rwa [Expr.formsAll_defValues])
    (by simp [Expr.defValues]) henv _ ?_ ?_
  · intro ω1 r1 s1 _ hm1
    obtain ⟨hm2, hnames⟩ := hm1.namesOf hforms hsite
    exact ⟨_, _, _, outcome_modifyGet _ _, hm2, hnames⟩
  · intro ω1 r1 s1 frame addr hm1 henv1
    exact hev ω1 r1 s1 _ _ body hm1 henv1 hbody

/-- Definitions that see each other. -/
theorem letRecursive (hm : m.config.IsEager) (hforms : Form.Identified forms)
    (hev : EvaluatorsFollow forms m n aev ev) (h : Matches forms m ω r s) (henv : EnvRep ω env link)
    (hdefs : Expr.formsDefs defs ⊆ forms) (hbody : body.forms ⊆ forms)
    (hsite : (site.number, .names (defs.map Prod.fst)) ∈ forms) :
    Follows forms m n ω s r s
      (fun k => do
        let names ← modifyGet (fun r => r.namesOf site (defs.map Prod.fst))
        let frame ← ArenaEval.allocFrame link (List.replicate defs.length Cell.uninit) names
        ArenaEval.evalInto (aev k) frame 0 (Expr.defValues defs)
        aev k (some frame) body)
      (do
        let frame ← EvalOps.newFrame (Expr.defNames (Expr.unsitedDefs defs))
        Eval.bindEach ev m (frame :: env) frame (Expr.defValues (Expr.unsitedDefs defs))
        ev m (frame :: env) body.unsited) Represented := by
  rw [Expr.defNames_unsitedDefs, Expr.defValues_unsitedDefs]
  obtain ⟨hm1, hlater1, hfree⟩ := h.newFrame ((defs.map Prod.fst).map Ident.name)
  generalize hframe : (s.newFrame ((defs.map Prod.fst).map Ident.name)).1 = frame at hfree
  have hslots : frame.map Binding.slot = List.range' s.slots.size defs.length := by
    rw [← hframe, Store.map_slot_newFrame, List.length_map, List.length_map]
  have hframelen : frame.length = defs.length := by
    rw [← List.length_map (f := Binding.slot), hslots, List.length_range']
  have hnew : ∀ b ∈ frame, s.slots.size ≤ b.slot := by
    intro b hb
    have hmem : b.slot ∈ frame.map Binding.slot := List.mem_map_of_mem hb
    rw [hslots, List.mem_range'_1] at hmem
    exact hmem.1
  refine right (y := frame) (by rw [← hframe]; rfl) ?_
  obtain ⟨hm2, hnames⟩ := hm1.namesOf hforms hsite
  refine left (outcome_modifyGet _ r) ?_
  -- the slots have not been initialised, and neither have their words
  obtain ⟨ω3, hm3, henv3, hlater3⟩ := hm2.newActivation true frame
    (List.replicate defs.length Cell.uninit) henv
    (by rw [List.length_replicate, hframelen]) hnames
    (fun _ => by rw [← hframe, Store.map_name_newFrame])
    (by rw [hslots]; exact List.nodup_range') hfree (fun i b w hb hw => by
      left
      refine ⟨rfl, ?_, (List.mem_replicate.mp (List.mem_of_getElem? hw)).2⟩
      rw [Store.slot_newFrame, Store.slot_eq_uninit (hnew b (List.mem_of_getElem? hb))])
  refine leftMake (ArenaEval.outcome_allocFrame _ _ _ _) ?_
  have hlater := hlater3 ω s hlater1 hnew
  have hinto := evalInto (i := 0) hm hev hm3 henv3 (Expr.defValues defs)
    (by rwa [Expr.formsAll_defValues]) (by simp [Expr.defValues, hframelen])
  rw [List.drop_zero] at hinto
  refine bind hlater hinto ?_
  rintro ω4 r4 _ s4 _ hlater4 hm4 -
  exact (hev ω4 r4 s4 _ _ body hm4 (henv3.mono hlater4.grows) hbody).rebase
    (hlater.trans hlater4)

/-! ## Expressions -/

theorem sequence (hev : EvaluatorsFollow forms m n aev ev) (h : Matches forms m ω r s)
    (henv : EnvRep ω env link) (hes : Expr.formsAll es ⊆ forms) (hv : Rep ω v addr) :
    Follows forms m n ω s r s (fun k => ArenaEval.sequence (aev k) link addr es)
      (Eval.sequence ev m env v (Expr.unsitedAll es)) Represented := by
  induction es generalizing ω r s v addr with
  | nil => exact pure (.refl _ _) h hv
  | cons e es ih =>
    have he : e.forms ⊆ forms := fun _ hx => hes (List.mem_append_left _ hx)
    refine bind (.refl _ _) (hev ω r s env link e h henv he) ?_
    intro ω1 r1 x s1 w hlater hm1 hw
    exact (ih hm1 (henv.mono hlater.grows) (fun _ hx => hes (List.mem_append_right _ hx))
      hw).rebase hlater

/-- The arena follows one level of the recursion of the evaluator. -/
theorem step (hm : m.config.IsEager) (htidy : ∀ m env e, Tidies (ev m env e))
    (hforms : Form.Identified forms) (harity : Form.SameArities forms)
    (hev : EvaluatorsFollow forms m n aev ev) :
    EvaluatorsFollow forms m n (fun k => ArenaEval.step m.config.maxDepth k (aev k))
      (Eval.step n ev) := by
  intro ω r s env link e h henv he
  cases e with
  | int sp k => exact allocInt h k
  | bool sp b => exact pure (.refl _ _) h (h.rep_bool b)
  | null sp => exact pure (.refl _ _) h h.rep_null
  | prim sp p => exact pure (.refl _ _) h (h.rep_prim p)
  | var sp x => exact lookup h henv x
  | unary sp op e =>
    refine bind (.refl _ _) (hev ω r s env link e h henv he) ?_
    intro ω1 r1 x s1 v hlater hm1 hv
    exact (unary hm1 hv op).rebase hlater
  | binary sp op e1 e2 =>
    exact binary hev h henv (fun _ hx => he (List.mem_append_left _ hx))
      (fun _ hx => he (List.mem_append_right _ hx)) op
  | app sp f args =>
    have hargs : Expr.formsAll args ⊆ forms := fun _ hx => he (List.mem_append_right _ hx)
    refine bind (.refl _ _) (hev ω r s env link f h henv
      (fun _ hx => he (List.mem_append_left _ hx))) ?_
    intro ω1 r1 x s1 v hlater hm1 hv
    have henv1 := henv.mono hlater.grows
    refine left (hm1.outcome_tag hv) ?_
    cases v with
    | closure id c => exact (applyClosure hm htidy hev hm1 henv1 f hargs hv).rebase hlater
    | prim p => exact (applyPrim hm hev hm1 henv1 p hargs).rebase hlater
    | _ => exact (shownFault hm1 hv .notAFunction).rebase hlater
  | map sp params site body =>
    have hbody : body.forms ⊆ forms := fun _ hx => he (List.mem_cons_of_mem _ hx)
    obtain ⟨hm1, params', hsame, hcode⟩ := h.codeOf hforms harity (he List.mem_cons_self)
    obtain ⟨ω2, hm2, hlater, hrep⟩ := hm1.newClosure
      (c := ⟨params, ⟨site.slots⟩, body.unsited, env⟩) hcode hsame hbody rfl henv
    have halloc : ArenaEval.allocClosure link params site body = (do
        let code : Nat ← modifyGet (fun r => r.codeOf params site body)
        ArenaEval.alloc [Tag.closure.word, params.length, code, Cell.linkWord link]) := rfl
    change Follows forms m n ω s r s (fun _ => ArenaEval.allocClosure link params site body) _ _
    rw [halloc]
    refine left (outcome_modifyGet _ r) ?_
    exact make (ArenaEval.outcome_alloc _ _) (outcome_modifyGet _ s) hlater hm2 hrep
  | cond sp t a b =>
    refine bind (.refl _ _) (hev ω r s env link t h henv (fun _ hx => he
      (List.mem_append_left _ (List.mem_append_left _ hx)))) ?_
    intro ω1 r1 x s1 v hlater hm1 hv
    have henv1 := henv.mono hlater.grows
    simp only [hm1.truth?_eq hv]
    cases v with
    | bool test =>
      cases test with
      | true =>
        exact (hev ω1 r1 s1 env link a hm1 henv1 (fun _ hx => he
          (List.mem_append_left _ (List.mem_append_right _ hx)))).rebase hlater
      | false =>
        exact (hev ω1 r1 s1 env link b hm1 henv1 (fun _ hx => he
          (List.mem_append_right _ hx))).rebase hlater
    | _ => exact (mismatch hm1 hv _).rebase hlater
  | letIn sp kind defs site body =>
    have hsite : (site.number, Form.names (defs.map Prod.fst)) ∈ forms :=
      he List.mem_cons_self
    have hdefs : Expr.formsDefs defs ⊆ forms := fun _ hx =>
      he (List.mem_cons_of_mem _ (List.mem_append_left _ hx))
    have hbody : body.forms ⊆ forms := fun _ hx =>
      he (List.mem_cons_of_mem _ (List.mem_append_right _ hx))
    cases kind with
    | plain => exact letPlain hm htidy hforms hev h henv hdefs hbody hsite
    | recursive => exact letRecursive hm hforms hev h henv hdefs hbody hsite
  | block sp es => exact sequence hev h henv he h.rep_unit

/-- Evaluating in an arena follows evaluating eagerly. -/
theorem eval (hm : m.config.IsEager) (hforms : Form.Identified forms)
    (harity : Form.SameArities forms) (n : Nat) :
    EvaluatorsFollow forms m n (fun k => ArenaEval.eval m.config.maxDepth k)
      (Machine.eval n) := by
  induction n with
  | zero => exact fun ω r s env link e _ _ _ => exhausted rfl rfl
  | succ n ih =>
    intro ω r s env link e h henv he
    exact succ (step hm (Tidies.eval n) hforms harity ih ω r s env link e h henv he)

end Follows

end

/-! ## Programs -/

/-- The configuration of the evaluator that does what a run in an arena does. -/
def ArenaConfig.eager (c : ArenaConfig) : Config := ⟨.value, .value, c.maxDepth⟩

/-- A run in an arena and the evaluator end in the same way: with values of the same kind that
are the same when they are written in full, or with the same error. -/
inductive SameEnd : Except ArenaError (CellValue × Store Address Site) →
    Except EvalError (Value Address Layout) × Store Address Layout → Prop
  | ok {v : CellValue} {t : Store Address Site} {w : Value Address Layout}
      {s : Store Address Layout} (kind : v.kind = w.kind)
      (render : ∀ n, GiveSame t (v.render n) s (w.render n)) : SameEnd (.ok (v, t)) (.ok w, s)
  | error (e : EvalError) (s : Store Address Layout) : SameEnd (.error (.eval e)) (.error e, s)

/-- Whatever an arena holds, a program that starts in it matches the evaluator starting on it: what
is there already are fixed words. -/
theorem Matches.ofRun {forms : List (Nat × Form)} {r : Run} (config : Config)
    (hreserved : Cell.reserved <+: r.arena.words.toList) (hdepth : r.depth = 0)
    (hnames : r.letNames = ∅) (hknown : ∀ (num : Nat) k, r.functions[num]? = some k →
      ∃ params body, (num, Form.function params body) ∈ forms ∧
        r.arena.code.HasFunction k params body) :
    Matches forms ⟨config, 0⟩ (r.arena.words.toList.map .fixed) r
      (Store.empty.newMachine config).2 := by
  -- a fixed word belongs to nothing that the evaluator has made
  have howner : ∀ p, World.owner? (r.arena.words.toList.map .fixed) p = none := by
    intro p
    rw [World.owner?, List.getElem?_map]
    cases r.arena.words.toList[p]? <;> rfl
  have hnone : ∀ k : Option Nat, r.letNames[k]? = none := by
    intro k
    rw [hnames]
    exact Std.HashMap.getElem?_empty
  exact {
    size := by simp
    holds := fun p role hp => by
      obtain ⟨w, hw, rfl⟩ := Option.map_eq_some_iff.mp (List.getElem?_map ▸ hp)
      rwa [Array.getElem?_toList] at hw
    once := fun p q o hp => by
      rw [howner] at hp
      cases hp
    within := fun p o hp => by
      rw [howner] at hp
      cases hp
    unique := hreserved.map _
    eager := fun i => .inl (Store.slot_eq_uninit (Nat.zero_le i))
    depth := hdepth
    counter := Nat.zero_lt_one
    remembers := by
      refine ⟨hknown, fun num k hk => ?_, fun k hk => ?_⟩
      · rw [hnone] at hk
        cases hk
      · rw [hnone] at hk
        cases hk }

/-- What a run gives once its program has been evaluated: the decoded value, or the error. -/
def decodedEnd (n : Nat) : Except ArenaError Nat × Run →
    Option (Except ArenaError (CellValue × Store Address Site))
  | (.error e, _) => some (.error e)
  | (.ok addr, r) => (r.arena.decode n addr).map (fun o => o.1.map (fun v => (v, o.2.store)))

theorem runSitedInArena_eq (config : ArenaConfig) (n : Nat) (e : SitedExpr) :
    runSitedInArena config n e = (outcome (ArenaEval.eval config.maxDepth n none e)
      (Run.start (.withCapacity config.capacity))).bind (decodedEnd n) := by
  change ((outcome (ArenaEval.eval config.maxDepth n none e)
    (Run.start (.withCapacity config.capacity))) >>= _) = _
  rcases outcome (ArenaEval.eval config.maxDepth n none e)
    (Run.start (.withCapacity config.capacity)) with _ | ⟨e | addr, r⟩
  · rfl
  · rfl
  · simp only [decodedEnd, Option.bind_eq_bind, Option.bind_some]
    cases r.arena.decode n addr <;> rfl

/-- The value that a run decodes at the end is the one that the evaluator gives. -/
theorem Corresponds.sameEnd {forms : List (Nat × Form)} {m : Machine}
    {o : Except ArenaError Nat × Run}
    {o' : Except EvalError (Value Address Layout) × Store Address Layout}
    (h : Corresponds forms m ω0 s0 Represented o o') :
    ∃ o1, Ends (fun n => decodedEnd n o) o1 ∧ (∀ n o2, decodedEnd n o = some o2 → o2 = o1) ∧
      SameEnd o1 o' := by
  cases h with
  | error e r s =>
    refine ⟨.error (.eval e), ⟨0, fun _ _ => rfl⟩, fun n o2 ho2 => ?_, .error e s⟩
    exact (Option.some.inj ho2).symm
  | @ok ω r s addr w later hmatch post =>
    obtain ⟨v, d, ⟨N, hN⟩, hall, hlooks⟩ := hmatch.decode post
    refine ⟨.ok (v, d.store), ⟨N, fun n hn => ?_⟩, fun n o2 ho2 => ?_,
      .ok hlooks.kind_eq hlooks.render⟩
    · have hn' := hN n hn
      dsimp only at hn' ⊢
      rw [decodedEnd, hn']
      rfl
    · obtain ⟨x, hx, rfl⟩ := Option.map_eq_some_iff.mp ho2
      rw [hall n x hx]
      rfl

/-- If maps that share their body have equally many parameters, a run in an arena either runs out
of room or ends as the eager evaluator does: whatever either of the two gives for some number, the
other one gives for every number that is large enough. -/
theorem runSitedInArena_refines_evaluate (config : ArenaConfig) (p : SharedProgram)
    (hp : p.SameArities) :
    (∀ n o, runSitedInArena config n p.tree = some o → (∀ c, o ≠ .error (.exhausted c)) →
      ∃ o', Ends (fun n => evaluate n config.eager p.unshared) o' ∧ SameEnd o o') ∧
    ∀ n o', evaluate n config.eager p.unshared = some o' →
      ∃ o, Ends (fun n => runSitedInArena config n p.tree) o ∧
        ((∀ c, o ≠ .error (.exhausted c)) → SameEnd o o') := by
  have hfollows : ∀ n, Follows p.tree.forms ⟨config.eager, 0⟩ n
      (Cell.reserved.map .fixed) (Store.empty.newMachine config.eager).2
      (Run.start (.withCapacity config.capacity))
      (Store.empty.newMachine config.eager).2
      (fun k => ArenaEval.eval config.maxDepth k none p.tree)
      (Machine.eval n ⟨config.eager, 0⟩ [] p.unshared) Represented := by
    have hstart : Matches p.tree.forms ⟨config.eager, 0⟩ (Cell.reserved.map .fixed)
        (Run.start (.withCapacity config.capacity)) (Store.empty.newMachine config.eager).2 :=
      .ofRun (r := .start (.withCapacity config.capacity)) config.eager (List.prefix_refl _) rfl
        rfl (fun num k hk =>
          absurd (Std.HashMap.getElem?_empty.symm.trans hk) (Option.some_ne_none k).symm)
    exact fun n => Follows.eval (m := ⟨config.eager, 0⟩) ⟨rfl, rfl⟩ p.identified hp n _ _ _ []
      none p.tree hstart .nil (List.Subset.refl _)
  constructor
  · intro n o ho hroom
    rw [runSitedInArena_eq] at ho
    obtain ⟨o₁, ho₁, ho⟩ := Option.bind_eq_some_iff.mp ho
    rcases (hfollows n).forth o₁ ho₁ with ⟨c, hc⟩ | ⟨o', ho', hcorr⟩
    · obtain ⟨_, r₁⟩ := o₁
      cases hc
      exact absurd (Option.some.inj ho).symm (hroom c)
    · obtain ⟨o₂, -, hall, hend⟩ := hcorr.sameEnd
      exact ⟨o', ends_evaluate ho', hall n o ho ▸ hend⟩
  · intro n o' ho'
    obtain ⟨o₁, ⟨N, hN⟩, hcorr⟩ := (hfollows n).back o' ho'
    have hrun : ∀ k, N ≤ k → runSitedInArena config k p.tree = decodedEnd k o₁ := by
      intro k hk
      have hk' := hN k hk
      dsimp only at hk'
      rw [runSitedInArena_eq, hk']
      rfl
    rcases hcorr with ⟨c, hc⟩ | hcorr
    · obtain ⟨_, r₁⟩ := o₁
      cases hc
      exact ⟨_, ⟨N, hrun⟩, fun hroom => absurd rfl (hroom c)⟩
    · obtain ⟨o, ⟨M, hM⟩, -, hend⟩ := hcorr.sameEnd
      refine ⟨o, ⟨max N M, fun k hk => ?_⟩, fun _ => hend⟩
      exact (hrun k (by omega)).trans (hM k (by omega))

/-! ## Maps with the same body -/

/-- `{ map ps to [0,0]; map qs to [0,0] }`, where both maps have the same body. -/
def sharedBody (ps qs : List Ident) : SitedExpr :=
  let body : SitedExpr := .var .synthetic ⟨0, 0⟩
  .block .synthetic
    [.map .synthetic ps ⟨ps.length, 0⟩ body, .map .synthetic qs ⟨qs.length, 0⟩ body]

theorem mem_forms_sharedBody {ps qs params : List Ident} {k : Nat} {body : SitedExpr} :
    (k, Form.function params body) ∈ (sharedBody ps qs).forms ↔
      (params = ps ∨ params = qs) ∧ k = 0 ∧ body = .var .synthetic ⟨0, 0⟩ := by
  simp only [sharedBody, Expr.forms, Expr.formsAll, List.append_nil, List.cons_append,
    List.nil_append, List.mem_cons, Prod.mk.injEq, Form.function.injEq, List.not_mem_nil, or_false]
  tauto

def sharedMaps (ps qs : List Ident) : SharedProgram where
  tree := sharedBody ps qs
  identified := by
    refine ⟨fun hx hy => ?_, fun hx => ?_⟩
    · obtain ⟨-, -, rfl⟩ := mem_forms_sharedBody.mp hx
      obtain ⟨-, -, rfl⟩ := mem_forms_sharedBody.mp hy
      rfl
    · simp [sharedBody, Expr.forms, Expr.formsAll] at hx

theorem sameArities_sharedMaps (ps qs : List Ident) (h : ps.length = qs.length) :
    (sharedMaps ps qs).SameArities := by
  intro k params body params' body' hx hy
  obtain ⟨hparams, -⟩ := mem_forms_sharedBody.mp hx
  obtain ⟨hparams', -⟩ := mem_forms_sharedBody.mp hy
  rcases hparams with rfl | rfl <;> rcases hparams' with rfl | rfl <;> omega

/-- Maps with the same body may have differently named parameters. -/
theorem runSitedInArena_refines_evaluate_sharedMaps :
    (sharedMaps [.synthetic "x"] [.synthetic "y"]).SameArities ∧ ∃ o o',
      runSitedInArena ⟨64, 5⟩ 9 (sharedMaps [.synthetic "x"] [.synthetic "y"]).tree = some (.ok o) ∧
      Ends (fun n => evaluate n ⟨.value, .value, 5⟩
        (sharedMaps [.synthetic "x"] [.synthetic "y"]).unshared) o' ∧ SameEnd (.ok o) o' := by
  have hp := sameArities_sharedMaps [.synthetic "x"] [.synthetic "y"] rfl
  obtain ⟨o, ho⟩ : ∃ o, runSitedInArena ⟨64, 5⟩ 9
      (sharedMaps [.synthetic "x"] [.synthetic "y"]).tree = some (.ok o) := by
    have hok : ((runSitedInArena ⟨64, 5⟩ 9
        (sharedMaps [.synthetic "x"] [.synthetic "y"]).tree).map Except.isOk) = some true := by cbv
    obtain ⟨o, ho, hok⟩ := Option.map_eq_some_iff.mp hok
    cases o with
    | ok o => exact ⟨o, ho⟩
    | error e => cases hok
  obtain ⟨o', hends, hsame⟩ :=
    (runSitedInArena_refines_evaluate ⟨64, 5⟩ _ hp).1 9 _ ho (fun _ h => by cases h)
  exact ⟨hp, o, o', ho, hends, hsame⟩

def renderedEnd (n : Nat) (o : Except ArenaError (CellValue × Store Address Site)) :
    Option (Except EvalError String) :=
  o.toOption.bind (fun p => (outcome (p.1.render n) p.2).map Prod.fst)

/-- Where maps with the same body have different numbers of parameters, the second one looks like
the first: its function is recorded already. -/
theorem runSitedInArena_forgets_arity : ∃ v t w s,
    runSitedInArena ⟨64, 5⟩ 9
        (sharedMaps [.synthetic "x"] [.synthetic "x", .synthetic "y"]).tree = some (.ok (v, t)) ∧
      evaluate 9 ⟨.value, .value, 5⟩
        (sharedMaps [.synthetic "x"] [.synthetic "x", .synthetic "y"]).unshared = some (.ok w, s) ∧
      (outcome (v.render 9) t).map Prod.fst = some (.ok "<closure/1>") ∧
      (outcome (w.render 9) s).map Prod.fst = some (.ok "<closure/2>") ∧
      ¬ SameEnd (.ok (v, t)) (.ok w, s) := by
  obtain ⟨v, t, hrun, hv⟩ : ∃ v t, runSitedInArena ⟨64, 5⟩ 9
      (sharedMaps [.synthetic "x"] [.synthetic "x", .synthetic "y"]).tree = some (.ok (v, t)) ∧
      (outcome (v.render 9) t).map Prod.fst = some (.ok "<closure/1>") := by
    have hrender : (runSitedInArena ⟨64, 5⟩ 9
        (sharedMaps [.synthetic "x"] [.synthetic "x", .synthetic "y"]).tree).bind (renderedEnd 9) =
        some (.ok "<closure/1>") := by cbv
    obtain ⟨o, ho, hrender⟩ := Option.bind_eq_some_iff.mp hrender
    cases o with
    | ok o => exact ⟨o.1, o.2, ho, hrender⟩
    | error e => cases hrender
  obtain ⟨w, s, hrun', hw⟩ : ∃ w s, evaluate 9 ⟨.value, .value, 5⟩
      (sharedMaps [.synthetic "x"] [.synthetic "x", .synthetic "y"]).unshared = some (.ok w, s) ∧
      (outcome (w.render 9) s).map Prod.fst = some (.ok "<closure/2>") := ⟨_, _, rfl, rfl⟩
  refine ⟨v, t, w, s, hrun, hrun', hv, hw, fun h => ?_⟩
  cases h with
  | ok kind render =>
    obtain ⟨o, ho, ho'⟩ := render 9
    rw [ho, Option.map_map, Option.map_eq_some_iff] at hv
    rw [ho', Option.map_map, Option.map_eq_some_iff] at hw
    obtain ⟨x, hx, rfl : x = _⟩ := hv
    obtain ⟨y, hy, rfl : y = _⟩ := hw
    simp [hx] at hy

end Mapling
