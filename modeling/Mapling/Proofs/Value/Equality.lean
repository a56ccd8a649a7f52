import Mapling.Proofs.Eval.Residue
import Mapling.Proofs.Value.Alike

/-! # Equality of evaluated data

Under the eager policies a pair is made from two values that there are, and the second of them is a
list. So the pairs that eager evaluation leaves are whole (`Whole`): both parts are there, and the
way down the parts ends. References do not disturb this, since equality does not follow them.

Among whole values, equality is an equivalence, and that a pair is found equal to itself without a
look at its parts cannot be observed (`equals_produced`). -/

namespace Mapling

variable {V L : Type}

/-- Both parts of a pair are there, the second is a list, and they are whole in their turn. -/
inductive Whole (s : Store V L) : Value V L → Prop
  | atom {v : Value V L} (hv : ∀ h t, v ≠ .pair h t) : Whole s v
  | pair {h t : Nat} {v w : Value V L} (hh : s.slot h = .ready v) (ht : s.slot t = .ready w)
      (hlist : w.isList = true) (hv : Whole s v) (hw : Whole s w) : Whole s (.pair h t)

variable {s s' : Store V L} {v w : Value V L}

theorem Whole.mono (h : ∀ i v, s.slot i = .ready v → s'.slot i = .ready v) (hv : Whole s v) :
    Whole s' v := by
  induction hv with
  | atom hv => exact .atom hv
  | pair hh ht hlist _ _ ihv ihw => exact .pair (h _ _ hh) (h _ _ ht) hlist ihv ihw

namespace Store

/-- Nothing is put off, and everything in the slots and cells is whole. -/
structure Whole (s : Store V L) : Prop where
  slots : ∀ i, s.slot i = .uninit ∨ ∃ v, s.slot i = .ready v ∧ Mapling.Whole s v
  cells : ∀ i, Mapling.Whole s (s.cell i)

theorem Tidy.whole (h : s.Tidy [] s') (hv : Mapling.Whole s v) : Mapling.Whole s' v :=
  hv.mono (fun _ _ hi => h.ready hi List.not_mem_nil)

end Store

theorem Whole.of_slots (hv : Whole s v) (h : s'.slots = s.slots) : Whole s' v :=
  hv.mono (fun i _ hi => by rw [Store.slot, h, ← Store.slot, hi])

namespace Store

namespace Whole

/-- Slots that were not initialised may have got whole values, and so may cells. -/
theorem grow (hs : s.Whole) (hready : ∀ i v, s.slot i = .ready v → s'.slot i = .ready v)
    (hslots : ∀ i, s'.slot i = s.slot i ∨ ∃ v, s'.slot i = .ready v ∧ Mapling.Whole s v)
    (hcells : ∀ i, Mapling.Whole s (s'.cell i)) : s'.Whole := by
  refine ⟨fun i => ?_, fun i => (hcells i).mono hready⟩
  rcases hslots i with heq | ⟨v, hi, hv⟩
  · rw [heq]
    exact (hs.slots i).imp id (fun ⟨v, hi, hv⟩ => ⟨v, hi, hv.mono hready⟩)
  · exact .inr ⟨v, hi, hv.mono hready⟩

theorem of_slots (hs : s.Whole) (h : s'.slots = s.slots)
    (hcells : ∀ i, Mapling.Whole s (s'.cell i)) : s'.Whole := by
  have hslot : ∀ i, s'.slot i = s.slot i := fun i => by rw [slot, h, ← slot]
  exact hs.grow (fun i v hi => (hslot i).trans hi) (fun i => .inl (hslot i)) hcells

theorem newFrame (hs : s.Whole) (names : List String) : (s.newFrame names).2.Whole :=
  hs.grow (fun i _ hi => (slot_newFrame s names i).trans hi)
    (fun i => .inl (slot_newFrame s names i)) hs.cells

theorem setSlot (hs : s.Whole) {i : Nat} (hi : s.slot i = .uninit) (hv : Mapling.Whole s v) :
    (s.setSlot i (.ready v)).Whole := by
  refine hs.grow (fun j w hj => ?_) (fun j => ?_) hs.cells
  · rw [slot_setSlot, if_neg]
    · exact hj
    · rintro ⟨rfl, -⟩
      rw [hi] at hj
      cases hj
  · rw [slot_setSlot]
    split
    · exact .inr ⟨v, rfl, hv⟩
    · exact .inl rfl

/-- A pair of whole values, the second one a list, is whole. -/
theorem newPair (hs : s.Whole) (hv : Mapling.Whole s v) (hw : Mapling.Whole s w)
    (hlist : w.isList = true) :
    (s.newPair (.ready v) (.ready w)).2.Whole ∧
      Mapling.Whole (s.newPair (.ready v) (.ready w)).2
        (s.newPair (.ready v) (.ready w)).1 := by
  have hkept : s.Tidy [] (s.newPair (.ready v) (.ready w)).2 := .newPair nofun nofun
  refine ⟨hs.grow (fun _ _ hi => hkept.ready hi List.not_mem_nil) (fun i => ?_) hs.cells,
    .pair (v := v) (w := w) ?_ ?_ hlist (hkept.whole hv) (hkept.whole hw)⟩
  · rw [slot_newPair]
    split
    · exact .inr ⟨v, rfl, hv⟩
    · split
      · exact .inr ⟨w, rfl, hw⟩
      · exact .inl rfl
  · rw [slot_newPair, if_pos rfl]
  · rw [slot_newPair, if_neg (by omega), if_pos rfl]

end Whole

end Store

/-! ## Computations that leave everything whole -/

/-- Whatever comes of the computation from the store `s`: everything is whole. If it has a result,
`P` holds of it. -/
def Upholds {α : Type} (s : Store V L) (x : Eval V L α) (P : α → Store V L → Prop) : Prop :=
  Ensures x s (fun a s' => s'.Whole ∧ P a s') (fun _ s' => s'.Whole)

/-- From every store where everything is whole the computation gives a whole value, if any. -/
def GivesWhole (x : Eval V L (Value V L)) : Prop :=
  ∀ s : Store V L, s.Whole → Upholds s x (fun v s' => Whole s' v)

namespace Upholds

variable {α β : Type} {P : α → Store V L → Prop} {Q : β → Store V L → Prop}
variable {x : Eval V L α} {f : α → Eval V L β}

theorem pure {a : α} (hs : s.Whole) (ha : P a s) : Upholds s (pure a) P :=
  Ensures.pure ⟨hs, ha⟩

theorem throw (hs : s.Whole) (e : EvalError) : Upholds s (throw e) P :=
  Ensures.throw hs

theorem bind (h : Upholds s x P)
    (hf : ∀ a s', s'.Whole → P a s' → Upholds s' (f a) Q) : Upholds s (x >>= f) Q :=
  Ensures.bind h (fun a s1 h1 => hf a s1 h1.1 h1.2)

/-- What it leaves of the store may be used as well. -/
theorem tidy (h : Upholds s x P) (hx : Tidies x) :
    Upholds s x (fun a s' => P a s' ∧ s.Tidy [] s') := by
  intro o s' ho
  cases o with
  | error e => exact h _ s' ho
  | ok a => exact ⟨(h _ s' ho).1, (h _ s' ho).2, hx s _ s' ho⟩

theorem ofExcept (hs : s.Whole) (r : Except EvalError α) :
    Upholds s (Eval.ofExcept r) (fun _ _ => True) := by
  cases r with
  | ok a => exact pure hs trivial
  | error e => exact throw hs e

/-- An operation on cells, closures or depths. -/
theorem modifyGet {g : Store V L → α × Store V L} (hs : s.Whole) (hg : (g s).2.slots = s.slots)
    (hcells : ∀ i, Whole s ((g s).2.cell i)) (ha : P (g s).1 (g s).2) :
    Upholds s (modifyGet g : Eval V L α) P := by
  rintro o s' ho
  cases ho
  exact ⟨hs.of_slots hg hcells, ha⟩

/-- Failing with a message that shows a value. -/
theorem throwShown (hs : s.Whole) (n : Nat) (v : Value V L) (e : String → EvalError) :
    Upholds s (do MonadExcept.throw (e (← Eval.shown n v))) P := by
  rintro o s' ho
  rw [outcome_bind, Eval.outcome_shown] at ho
  cases htext : v.text s n with
  | none =>
    rw [htext] at ho
    cases ho
  | some t =>
    rw [htext] at ho
    cases ho
    exact hs

theorem nested (m : Machine) {y : Eval V L (Value V L)} (hy : GivesWhole y) :
    GivesWhole (Eval.nested m y) := by
  intro s hs
  have henter : Upholds s (Eval.enter m) (fun _ _ => True) := by
    unfold Eval.enter
    refine Ensures.step (outcome_get s) ?_
    dsimp only
    split
    · exact modifyGet hs rfl hs.cells trivial
    · exact throw hs _
  refine henter.bind (fun _ s1 hs1 _ => ?_)
  intro o s' ho
  rw [Eval.outcome_andThen] at ho
  obtain ⟨⟨r, s2⟩, hr, heq⟩ := Option.map_eq_some_iff.mp ho
  cases heq
  have hrun := hy s1 hs1 r s2 hr
  cases r with
  | error e => exact hrun.of_slots rfl hrun.cells
  | ok v => exact ⟨hrun.1.of_slots rfl hrun.1.cells, hrun.2.of_slots rfl⟩

/-! ### Slots -/

variable {ev : Evaluator V L} {m : Machine} {env : Env} {n : Nat}

theorem force (label : String) (i : Nat) : GivesWhole (Eval.force ev label i) := by
  intro s hs
  refine Ensures.step (outcome_get s) ?_
  rcases hs.slots i with hi | ⟨v, hi, hv⟩
  · rw [hi]
    exact throw hs _
  · rw [hi]
    exact pure hs hv

theorem forceTail (i : Nat) : GivesWhole (Eval.forceTail n ev i) := by
  intro s hs
  refine (force _ i s hs).bind (fun v s1 hs1 hv => ?_)
  split
  · exact pure hs1 hv
  · exact throwShown hs1 n v _

variable (hm : m.config.IsEager) (htidy : ∀ m env e, Tidies (ev m env e))
  (hev : ∀ env e, GivesWhole (ev m env e))

include hm htidy hev in
/-- Binding a frame leaves a store whole. -/
theorem bindEach {bs : List Binding} (es : List (Expr V L)) (hs : s.Whole)
    (hbs : (bs.map Binding.slot).Nodup)
    (hb : ∀ b ∈ bs, b.slot < s.slots.size ∧ s.slot b.slot = .uninit) :
    Upholds s (Eval.bindEach ev m env bs es) (fun _ _ => True) := by
  induction bs generalizing es s with
  | nil => cases es <;> exact pure hs trivial
  | cons b bs ih =>
    cases es with
    | nil => exact pure hs trivial
    | cons e es =>
      rw [Eval.bindEach_cons ev env hm]
      rw [List.map_cons, List.nodup_cons] at hbs
      refine ((hev env e s hs).tidy (htidy m env e)).bind (fun v s1 hs1 ⟨hv, hk⟩ => ?_)
      -- the evaluation has left the slots of the frame alone
      have hb1 : ∀ c ∈ b :: bs, c.slot < s1.slots.size ∧ s1.slot c.slot = .uninit := by
        intro c hc
        obtain ⟨hlt, huninit⟩ := hb c hc
        refine ⟨hlt.trans_le hk.size, (hk.slot _ hlt List.not_mem_nil ?_).trans huninit⟩
        rw [huninit]
        nofun
      refine Ensures.step rfl (ih es (hs1.setSlot (hb1 b List.mem_cons_self).2 hv) hbs.2 ?_)
      intro c hc
      obtain ⟨hlt, huninit⟩ := hb1 c (List.mem_cons_of_mem b hc)
      refine ⟨by rwa [Store.size_setSlot], ?_⟩
      rw [Store.slot_setSlot, if_neg, huninit]
      rintro ⟨heq, -⟩
      exact hbs.1 (heq ▸ List.mem_map_of_mem hc)

include hm htidy hev in
/-- Making a frame, binding its expressions and going on. -/
theorem bindFrame (scope : Frame → Env) (names : List String) (es : List (Expr V L))
    {f : Frame → Eval V L (Value V L)} (hf : ∀ frame, GivesWhole (f frame)) :
    GivesWhole (do
      let frame ← EvalOps.newFrame names
      Eval.bindEach ev m (scope frame) frame es
      f frame) := by
  intro s hs
  refine Ensures.step (outcome_modifyGet _ s) ?_
  exact (bindEach hm htidy hev es (hs.newFrame names) (s.nodup_newFrame names)
    Store.uninit_newFrame).bind (fun _ s1 hs1 _ => hf _ s1 hs1)

/-! ### Operators -/

/-- Comparing leaves a store whole. -/
theorem equals (hs : s.Whole) (v w : Value V L) :
    Upholds s (Eval.equals ev n v w) (fun _ _ => True) := by
  induction n generalizing s v w with
  | zero => exact Ensures.of_none rfl
  | succ n ih =>
    cases v with
    | pair h t =>
      cases w with
      | pair h' t' =>
        rw [Eval.equals, Eval.equalsBy]
        split
        · exact pure hs trivial
        · refine (force _ h s hs).bind (fun a s1 hs1 _ => ?_)
          refine (force _ h' s1 hs1).bind (fun b s2 hs2 _ => ?_)
          refine (ih hs2 a b).bind (fun same s3 hs3 _ => ?_)
          split
          · refine (forceTail t s3 hs3).bind (fun a s4 hs4 _ => ?_)
            exact (forceTail t' s4 hs4).bind (fun b s5 hs5 _ => ih hs5 a b)
          · exact pure hs3 trivial
      | _ => exact pure hs trivial
    | _ => cases w <;> exact pure hs trivial

theorem unary (op : UnaryOp) (hs : s.Whole) (hv : Whole s v) :
    Upholds s (Eval.unary n op v) (fun v s' => Whole s' v) := by
  unfold Eval.unary
  split
  · exact (ofExcept hs _).bind (fun k _ hs' _ => pure hs' (.atom nofun))
  · exact pure hs (.atom nofun)
  · exact Ensures.step (outcome_get s) (pure hs (hs.cells _))
  · refine modifyGet hs rfl (fun i => ?_) (.atom nofun)
    rw [Store.cell_newRef]
    split
    · exact hv
    · exact hs.cells i
  · exact throwShown hs n _ _

theorem arithmetic (op : BinaryOp) (hs : s.Whole) (v w : Value V L) :
    Upholds s (Eval.arithmetic n op v w) (fun v s' => Whole s' v) := by
  unfold Eval.arithmetic
  split
  · refine (ofExcept hs _).bind (fun r _ hs' _ => ?_)
    cases r <;> exact pure hs' (.atom nofun)
  · exact throwShown hs n _ _
  · exact throwShown hs n _ _

include hev in
theorem logical (op : BinaryOp) (decisive : Bool) (l r : Expr V L) :
    GivesWhole (Eval.logical n ev m env op decisive l r) := by
  intro s hs
  refine (hev env l s hs).bind (fun v s1 hs1 hv => ?_)
  split
  · split
    · exact pure hs1 (.atom nofun)
    · refine (hev env r s1 hs1).bind (fun w s2 hs2 hw => ?_)
      split
      · exact pure hs2 (.atom nofun)
      · exact throwShown hs2 n w _
  · exact throwShown hs1 n v _

include hev in
theorem binary (op : BinaryOp) (l r : Expr V L) :
    GivesWhole (Eval.binary (Eval.equals ev n) n ev m env op l r) := by
  intro s hs
  -- all operators but three evaluate both operands before they do anything else
  have hboth : ∀ {f : Value V L → Value V L → Eval V L (Value V L)},
      (∀ v w s', s'.Whole → Upholds s' (f v w) (fun v s' => Whole s' v)) →
      Upholds s (do f (← ev m env l) (← ev m env r)) (fun v s' => Whole s' v) :=
    fun hf => (hev env l s hs).bind (fun v s1 hs1 _ =>
      (hev env r s1 hs1).bind (fun w s2 hs2 _ => hf v w s2 hs2))
  cases op with
  | and | or => exact logical hev _ _ l r s hs
  | assign =>
    refine (hev env l s hs).bind (fun v s1 hs1 hv => ?_)
    split
    · refine (hev env r s1 hs1).bind (fun w s2 hs2 hw => ?_)
      refine (modifyGet (P := fun _ _ => True) hs2 rfl (fun i => ?_) trivial).bind
        (fun _ _ hs3 _ => pure hs3 (.atom nofun))
      change Whole s2 ((s2.setCell _ w).cell i)
      rw [Store.cell_setCell]
      split
      · exact hw
      · exact hs2.cells i
    · exact throwShown hs1 n _ _
  | eq | ne =>
    exact hboth (fun v w s' hs' => (equals hs' v w).bind (fun _ _ hs'' _ =>
      pure hs'' (.atom nofun)))
  | _ => exact hboth (fun v w s' hs' => arithmetic _ hs' v w)

/-! ### Application -/

include hm htidy hev in
theorem cons (h t : Expr V L) : GivesWhole (Eval.cons n ev m env h t) := by
  intro s hs
  rw [Eval.cons_value ev env hm]
  refine (hev env h s hs).bind (fun v s1 hs1 hv => ?_)
  refine ((hev env t s1 hs1).tidy (htidy m env t)).bind (fun w s2 hs2 ⟨hw, hk⟩ => ?_)
  split
  · rename_i hlist
    rintro o s' ho
    cases ho
    exact hs2.newPair (hk.whole hv) hw hlist
  · exact throwShown hs2 n w _

theorem select (p : Prim) {part : Nat → Nat → Eval V L (Value V L)}
    (hpart : ∀ h t, GivesWhole (part h t)) (hs : s.Whole) (v : Value V L) :
    Upholds s (Eval.select n p part v) (fun v s' => Whole s' v) := by
  unfold Eval.select
  split
  · exact hpart _ _ s hs
  · exact throw hs _
  · exact throwShown hs n _ _

theorem primitive (p : Prim) (hs : s.Whole) (v : Value V L) :
    Upholds s (Eval.primitive n ev p v) (fun v s' => Whole s' v) := by
  cases p with
  | first => exact select _ (fun h _ => force _ h) hs v
  | rest => exact select _ (fun _ t => forceTail t) hs v
  | arity =>
    unfold Eval.primitive
    dsimp only
    split
    · exact pure hs (.atom nofun)
    · exact pure hs (.atom nofun)
    · exact throwShown hs n _ _
  | cons => exact throwShown hs n v _
  | _ => exact pure hs (.atom nofun)

include hm htidy hev in
theorem applyPrim (p : Prim) (args : List (Expr V L)) :
    GivesWhole (Eval.applyPrim n ev m env p args) := by
  intro s hs
  unfold Eval.applyPrim
  split
  · exact cons hm htidy hev _ _ s hs
  · exact throw hs _
  · exact (hev env _ s hs).bind (fun v s1 hs1 _ => primitive _ hs1 v)
  · exact throw hs _

/-! ### Expressions -/

include hev in
theorem sequence (hv : Whole s v) (es : List (Expr V L)) (hs : s.Whole) :
    Upholds s (Eval.sequence ev m env v es) (fun v s' => Whole s' v) := by
  induction es generalizing s v with
  | nil => exact pure hs hv
  | cons e es ih => exact (hev env e s hs).bind (fun w s1 hs1 hw => ih hw hs1)

include hm htidy hev in
/-- Evaluating an expression gives whole values if evaluating the ones it leads to does. -/
theorem step [Variable V] (e : Expr V L) : GivesWhole (Eval.step n ev m env e) := by
  intro s hs
  cases e with
  | var sp x =>
    rw [Eval.step, Eval.stepBy]
    split
    · exact force _ _ s hs
    · exact throw hs _
  | unary sp op e => exact (hev env e s hs).bind (fun v s1 hs1 hv => unary op hs1 hv)
  | binary sp op l r => exact binary hev op l r s hs
  | app sp f args =>
    refine (hev env f s hs).bind (fun v s1 hs1 _ => ?_)
    split
    · unfold Eval.applyClosureBy
      split
      · exact throw hs1 _
      · exact bindFrame hm htidy hev (fun _ => env) _ args
          (fun frame => nested m (hev _ _)) s1 hs1
    · exact applyPrim hm htidy hev _ args s1 hs1
    · exact throwShown hs1 n _ _
  | map sp params layout body => exact modifyGet hs rfl hs.cells (.atom (by rintro _ _ ⟨⟩))
  | cond sp t a b =>
    refine (hev env t s hs).bind (fun v s1 hs1 _ => ?_)
    split
    · exact hev env a s1 hs1
    · exact hev env b s1 hs1
    · exact throwShown hs1 n _ _
  | letIn sp kind defs layout body =>
    exact bindFrame hm htidy hev (fun frame => kind.scope frame env) _ _
      (fun frame => hev _ body) s hs
  | block sp es => exact sequence hev (v := .unit) (.atom (by rintro _ _ ⟨⟩)) es hs
  | _ => exact pure hs (.atom (by rintro _ _ ⟨⟩))

include hm in
/-- Eager evaluation leaves everything whole. -/
theorem eval [Variable V] (n : Nat) (env : Env) (e : Expr V L) :
    GivesWhole (Machine.eval n m env e) := by
  induction n generalizing env e with
  | zero => exact fun s _ => Ensures.of_none rfl
  | succ n ih => exact step hm (Tidies.eval n) ih e

end Upholds

/-! ## Equality -/

namespace Eval

/-- Equality without the shortcut: pairs are compared part by part, also with themselves. -/
def equalsInParts (ev : Evaluator V L) : Nat → Value V L → Value V L → Eval V L Bool
  | 0, _, _ => EvalOps.exhausted
  | n + 1, .pair h t, .pair h' t' => do
    let a ← forceHead ev h
    let b ← forceHead ev h'
    if ← equalsInParts ev n a b then
      let a ← forceTail n ev t
      let b ← forceTail n ev t'
      equalsInParts ev n a b
    else return false
  | _ + 1, v, w => return sameAtom v w

end Eval

/-- The values are atoms that are the same, or pairs with the same data in both parts. -/
inductive SameData (s : Store V L) : Value V L → Value V L → Prop
  | atom {v w : Value V L} (h : Eval.sameAtom v w = true) : SameData s v w
  | pair {h t h' t' : Nat} {a b a' b' : Value V L} (hh : s.slot h = .ready a)
      (ht : s.slot t = .ready b) (hh' : s.slot h' = .ready a') (ht' : s.slot t' = .ready b')
      (ha : SameData s a a') (hb : SameData s b b') : SameData s (.pair h t) (.pair h' t')

namespace SameData

theorem refl (hv : Whole s v) : SameData s v v := by
  induction hv with
  | @atom v hv =>
    refine .atom ?_
    cases v with
    | pair h t => exact absurd rfl (hv h t)
    | _ => simp [Eval.sameAtom]
  | pair hh ht _ _ _ ihv ihw => exact .pair hh ht hh ht ihv ihw

theorem symm (h : SameData s v w) : SameData s w v := by
  induction h with
  | @atom v w h =>
    refine .atom ?_
    cases v <;> cases w <;> simp_all [Eval.sameAtom]
  | pair hh ht hh' ht' _ _ iha ihb => exact .pair hh' ht' hh ht iha ihb

/-- Having the same data is transitive. -/
theorem trans {u : Value V L} (h : SameData s u v) (h' : SameData s v w) : SameData s u w := by
  induction h generalizing w with
  | @atom u v h =>
    cases h' with
    | atom h' =>
      refine .atom ?_
      cases u <;> cases v <;> try cases h
      all_goals first | exact h' | (cases w <;> simp_all [Eval.sameAtom])
    | pair => cases u <;> cases h
  | pair hh ht hh' ht' _ _ iha ihb =>
    cases h' with
    | atom h' => cases h'
    | pair hh2 ht2 hh3 ht3 ha hb =>
      cases hh'.symm.trans hh2
      cases ht'.symm.trans ht2
      exact .pair hh ht hh3 ht3 (iha ha) (ihb hb)

theorem pair_iff {h t h' t' : Nat} {a b a' b' : Value V L} (hh : s.slot h = .ready a)
    (ht : s.slot t = .ready b) (hh' : s.slot h' = .ready a') (ht' : s.slot t' = .ready b') :
    SameData s (.pair h t) (.pair h' t') ↔ SameData s a a' ∧ SameData s b b' := by
  constructor
  · rintro (h | ⟨hh1, ht1, hh1', ht1', ha, hb⟩)
    · cases h
    · cases hh.symm.trans hh1
      cases ht.symm.trans ht1
      cases hh'.symm.trans hh1'
      cases ht'.symm.trans ht1'
      exact ⟨ha, hb⟩
  · rintro ⟨ha, hb⟩
    exact .pair hh ht hh' ht' ha hb

end SameData

def Decides (s : Store V L) (c : Nat → Eval V L Bool) (v w : Value V L) : Prop :=
  ∃ b, (b = true ↔ SameData s v w) ∧ Ends (fun n => outcome (c n) s) (.ok b, s)

namespace Decides

theorem succ {c : Nat → Eval V L Bool} (h : Decides s (fun n => c (n + 1)) v w) :
    Decides s c v w := by
  obtain ⟨b, hb, hends⟩ := h
  exact ⟨b, hb, hends.succ⟩

/-- Comparing pairs by comparing the parts. -/
theorem pair {h t h' t' : Nat} {a b a' b' : Value V L} (hh : s.slot h = .ready a)
    (ht : s.slot t = .ready b) (hh' : s.slot h' = .ready a') (ht' : s.slot t' = .ready b')
    (hb : b.isList = true) (hb' : b'.isList = true) (ev : Nat → Evaluator V L)
    {c : Nat → Value V L → Value V L → Eval V L Bool}
    (hhead : Decides s (fun n => c n a a') a a') (htail : Decides s (fun n => c n b b') b b') :
    Decides s
      (fun n => do
        let a ← Eval.forceHead (ev n) h
        let b ← Eval.forceHead (ev n) h'
        if ← c n a b then
          let a ← Eval.forceTail n (ev n) t
          let b ← Eval.forceTail n (ev n) t'
          c n a b
        else return false)
      (.pair h t) (.pair h' t') := by
  obtain ⟨r, hr, N, hN⟩ := hhead
  obtain ⟨q, hq, M, hM⟩ := htail
  refine ⟨r && q, ?_, max N M, fun n hn => ?_⟩
  · rw [SameData.pair_iff hh ht hh' ht', Bool.and_eq_true, hr, hq]
  · have hr := hN n (by omega)
    have hq := hM n (by omega)
    dsimp only [Eval.forceHead] at hr hq ⊢
    rw [outcome_bind_of_ok _ (Eval.outcome_force hh _),
      outcome_bind_of_ok _ (Eval.outcome_force hh' _), outcome_bind_of_ok _ hr]
    cases r with
    | false => rfl
    | true =>
      rw [if_pos rfl, outcome_bind_of_ok _ ((Eval.outcome_forceTail _ ht _).trans (if_pos hb)),
        outcome_bind_of_ok _ ((Eval.outcome_forceTail _ ht' _).trans (if_pos hb')), hq]
      rfl

/-- Comparing values that are not both pairs. -/
theorem atoms (h : ∀ h t h' t', ¬ (v = .pair h t ∧ w = .pair h' t')) (ev : Nat → Evaluator V L) :
    Decides s (fun n => Eval.equals (ev n) n v w) v w ∧
      Decides s (fun n => Eval.equalsInParts (ev n) n v w) v w := by
  have hatom : Decides s (fun _ => return Eval.sameAtom v w) v w := by
    refine ⟨_, ⟨.atom, ?_⟩, 0, fun _ _ => rfl⟩
    rintro (hsame | _)
    · exact hsame
    · exact absurd ⟨rfl, rfl⟩ (h _ _ _ _)
  have hequals : ∀ n, Eval.equals (ev (n + 1)) (n + 1) v w = return Eval.sameAtom v w := by
    intro n
    rw [Eval.equals, Eval.equalsBy]
    exact fun _ _ _ _ hv hw => h _ _ _ _ ⟨hv, hw⟩
  have hinParts : ∀ n, Eval.equalsInParts (ev (n + 1)) (n + 1) v w =
      return Eval.sameAtom v w := by
    intro n
    rw [Eval.equalsInParts]
    exact fun _ _ _ _ hv hw => h _ _ _ _ ⟨hv, hw⟩
  refine ⟨.succ ?_, .succ ?_⟩
  · simpa only [hequals] using hatom
  · simpa only [hinParts] using hatom

end Decides

/-- Equality of whole values, with and without the shortcut, decides whether they hold the same
data. The induction is on the way down the first. -/
theorem Whole.decides (hv : Whole s v) (hw : Whole s w) (ev : Nat → Evaluator V L) :
    Decides s (fun n => Eval.equals (ev n) n v w) v w ∧
      Decides s (fun n => Eval.equalsInParts (ev n) n v w) v w := by
  induction hv generalizing w ev with
  | atom hv => exact Decides.atoms (fun h t _ _ heq => hv h t heq.1) ev
  | @pair h t a b hh ht hlist ha hb iha ihb =>
    cases hw with
    | atom hw => exact Decides.atoms (fun _ _ h' t' heq => hw h' t' heq.2) ev
    | @pair h' t' a' b' hh' ht' hlist' ha' hb' =>
      obtain ⟨hhead, hheadInParts⟩ := iha ha' (fun n => ev (n + 1))
      obtain ⟨htail, htailInParts⟩ := ihb hb' (fun n => ev (n + 1))
      refine ⟨.succ ?_, .succ (.pair hh ht hh' ht' hlist hlist' (fun n => ev (n + 1))
        hheadInParts htailInParts)⟩
      by_cases hsame : h = h' ∧ t = t'
      · obtain ⟨rfl, rfl⟩ := hsame
        have hself : SameData s (.pair h t) (.pair h t) := .refl (.pair hh ht hlist ha hb)
        refine ⟨true, iff_of_true rfl hself, 0, fun n _ => ?_⟩
        simp [Eval.equalsBy]
      · simp only [Eval.equalsBy, if_neg hsame]
        exact .pair hh ht hh' ht' hlist hlist' (fun n => ev (n + 1)) hhead htail

/-! ## Values of eager runs -/

/-- The values that eager runs have given so far, and the store they are in. A run may be of any
expression in any environment, and it may fail. What runs have given may be bound to a name for
later runs, so they may share pairs and references. -/
inductive Produced [Variable V] : Store V L → List (Value V L) → Prop
  | start : Produced .empty []
  | machine {s : Store V L} {vs : List (Value V L)} (before : Produced s vs) (config : Config) :
      Produced (s.newMachine config).2 vs
  | bind {s : Store V L} {vs : List (Value V L)} {v : Value V L} (before : Produced s vs)
      (mem : v ∈ vs) (x : String) :
      Produced ((s.newFrame [x]).2.setSlot s.slots.size (.ready v)) vs
  | run {s s' : Store V L} {vs : List (Value V L)} {m : Machine} {n : Nat} {env : Env}
      {e : Expr V L} {o : Except EvalError (Value V L)} (before : Produced s vs)
      (eager : m.config.IsEager) (run : outcome (m.eval n env e) s = some (o, s')) :
      Produced s' (o.toOption.toList ++ vs)

/-- Whatever evaluation produces is whole. -/
theorem Produced.whole [Variable V] {vs : List (Value V L)} (h : Produced s vs) :
    s.Whole ∧ ∀ v ∈ vs, Whole s v := by
  induction h with
  | start =>
    exact ⟨⟨fun i => .inl (Store.slot_eq_uninit (Nat.zero_le i)), fun i => .atom nofun⟩, nofun⟩
  | machine before config ih =>
    obtain ⟨hs, hvs⟩ := ih
    exact ⟨hs.of_slots rfl hs.cells, fun v hv => (hvs v hv).of_slots rfl⟩
  | @bind s vs v before mem x ih =>
    obtain ⟨hs, hvs⟩ := ih
    have huninit : (s.newFrame [x]).2.slot s.slots.size = .uninit := by
      rw [Store.slot_newFrame, Store.slot_eq_uninit (Nat.le_refl _)]
    have hready : ∀ i w, s.slot i = .ready w →
        ((s.newFrame [x]).2.setSlot s.slots.size (.ready v)).slot i = .ready w := by
      intro i w hi
      rw [Store.slot_setSlot, if_neg, Store.slot_newFrame, hi]
      rintro ⟨rfl, -⟩
      rw [← Store.slot_newFrame s [x], huninit] at hi
      cases hi
    have hv : Whole (s.newFrame [x]).2 v :=
      (hvs v mem).mono (fun i w hi => (Store.slot_newFrame s [x] i).trans hi)
    exact ⟨(hs.newFrame [x]).setSlot huninit hv, fun w hw => (hvs w hw).mono hready⟩
  | @run s s' vs m n env e o before eager run ih =>
    obtain ⟨hs, hvs⟩ := ih
    have hrun := Upholds.eval eager n env e s hs o s' run
    have hk := Tidies.eval n m env e s o s' run
    cases o with
    | error err => exact ⟨hrun, fun v hv => hk.whole (hvs v hv)⟩
    | ok w =>
      obtain ⟨hs', hw⟩ := hrun
      refine ⟨hs', fun v hv => ?_⟩
      rcases List.mem_cons.mp hv with rfl | hv
      · exact hw
      · exact hk.whole (hvs v hv)

/-- Equality of what eager runs have given always comes to an end, with the answer of the comparison
without the shortcut and without an effect on the store. It is an equivalence. -/
theorem equals_produced [Variable V] {vs : List (Value V L)} (h : Produced s vs) :
    ∃ same : Value V L → Value V L → Bool,
      (∀ v ∈ vs, ∀ w ∈ vs, ∀ ev : Nat → Evaluator V L,
        Ends (fun n => outcome (Eval.equals (ev n) n v w) s) (.ok (same v w), s) ∧
          Ends (fun n => outcome (Eval.equalsInParts (ev n) n v w) s) (.ok (same v w), s)) ∧
      (∀ v ∈ vs, same v v = true) ∧
      (∀ v ∈ vs, ∀ w ∈ vs, same v w = same w v) ∧
      ∀ u ∈ vs, ∀ v ∈ vs, ∀ w ∈ vs, same u v = true → same v w = true → same u w = true := by
  classical
  obtain ⟨-, hvs⟩ := h.whole
  have hends : ∀ {v w : Value V L} {c : Nat → Eval V L Bool}, Decides s c v w →
      Ends (fun n => outcome (c n) s) (.ok (decide (SameData s v w)), s) := by
    rintro v w c ⟨b, hb, hends⟩
    have hdecide : decide (SameData s v w) = b := by rw [Bool.eq_iff_iff, decide_eq_true_iff, hb]
    rwa [hdecide]
  refine ⟨fun v w => decide (SameData s v w), fun v hv w hw ev => ?_, fun v hv => ?_,
    fun v _ w _ => ?_, fun u _ v _ w _ huv hvw => ?_⟩
  · obtain ⟨hequals, hinParts⟩ := (hvs v hv).decides (hvs w hw) ev
    exact ⟨hends hequals, hends hinParts⟩
  · exact decide_eq_true (.refl (hvs v hv))
  · exact decide_eq_decide.mpr ⟨.symm, .symm⟩
  · exact decide_eq_true (.trans (of_decide_eq_true huv) (of_decide_eq_true hvw))

/-- `r : ()` -/
def listOfReference : NamedExpr :=
  .mkApp (.prim .synthetic .cons) [.mkVar (.synthetic "r"), .null .synthetic]

/-- Two runs make a list of the reference that a run before them has given. -/
theorem equals_produced_listOfReference : ∃ s : Store Ident Unit,
    Produced s [.pair 3 4, .pair 1 2, .ref 0] ∧
      Ends (fun n => outcome (Eval.equals (Machine.eval n) n (.pair 3 4) (.pair 1 2)) s)
        (.ok true, s) ∧
      Ends (fun n => outcome (Eval.equalsInParts (Machine.eval n) n (.pair 1 2) (.pair 3 4)) s)
        (.ok true, s) := by
  let m : Machine := ⟨⟨.value, .value, 9⟩, 0⟩
  have hruns : ∃ s1 s2 s3 : Store Ident Unit,
      outcome (m.eval 9 [] (.unary .synthetic .ref (.int .synthetic 1)))
        (Store.empty.newMachine m.config).2 = some (.ok (.ref 0), s1) ∧
      outcome (m.eval 9 [[⟨"r", 0⟩]] listOfReference)
        ((s1.newFrame ["r"]).2.setSlot s1.slots.size (.ready (.ref 0))) =
          some (.ok (.pair 1 2), s2) ∧
      outcome (m.eval 9 [[⟨"r", 0⟩]] listOfReference) s2 = some (.ok (.pair 3 4), s3) ∧
      ∀ n, outcome (Eval.equals (Machine.eval (n + 2)) (n + 2) (.pair 3 4) (.pair 1 2)) s3 =
        some (.ok true, s3) := ⟨_, _, _, rfl, rfl, rfl, fun _ => rfl⟩
  obtain ⟨s1, s2, s3, hone, hfirst, hsecond, hequals⟩ := hruns
  have hm : m.config.IsEager := ⟨rfl, rfl⟩
  have hs3 : Produced s3 [.pair 3 4, .pair 1 2, .ref 0] :=
    .run (.run (.bind (.run (.machine .start m.config) hm hone) (.head _) "r") hm hfirst) hm hsecond
  have hends : Ends (fun n => outcome (Eval.equals (Machine.eval n) n (.pair 3 4) (.pair 1 2)) s3)
      (.ok true, s3) := Ends.succ (Ends.succ ⟨0, fun n _ => hequals n⟩)
  obtain ⟨same, hsame, -, hsymm, -⟩ := equals_produced hs3
  obtain ⟨hthere, -⟩ := hsame (.pair 3 4) (.head _) (.pair 1 2) (.tail _ (.head _)) Machine.eval
  obtain ⟨-, hback⟩ := hsame (.pair 1 2) (.tail _ (.head _)) (.pair 3 4) (.head _) Machine.eval
  have htrue : true = same (.pair 3 4) (.pair 1 2) :=
    Except.ok.inj (Prod.mk.inj (hends.unique hthere)).1
  refine ⟨s3, hs3, hends, ?_⟩
  rwa [hsymm (.pair 1 2) (.tail _ (.head _)) (.pair 3 4) (.head _), ← htrue] at hback

end Mapling
