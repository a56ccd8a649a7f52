import Mapling.Proofs.Policy.Tracing

/-! # Whatever means something can be evaluated

An expression that means something evaluates to it, whether results are kept or found again
(`Completes.of_means`), if the depth limit leaves enough room. The bindings `B` are those of another
run that has shown what the expression means; this run has bindings `C` of its own, and it works in
environments of twins.

What has to be ruled out is that the run reads a slot that is open, because its own expression is
being evaluated or its turn has not come. The induction is on the amount of work `h`, and for an
open slot nothing that is read first when the slot is read can be evaluated with less than `h` to
do (`Blocked`). To get there, the run follows the shortest way in which the expression of the slot
means something (`Means.exists_hard`): on this way it does not come back to the slot.

A pair may have twins that are two pairs, so a pair that is compared with itself has to be looked at
part by part on the other side (`Eagerness.shared`). -/

namespace Mapling

variable {i j n : Nat} {D : Bindings Address Layout} {seen es : List AddressedExpr}
  {bs : List Binding} {names : List String} {ev : Evaluator Address Layout} {p : Prim}
  {f : Nat → Nat} {frame : Frame} {b : Bool} {w : Value Address Layout}

/-- The evaluator that has no outcome where it comes to compare closures. -/
abbrev evalApart (n : Nat) : Evaluator Address Layout := Machine.evalWith Eval.equalsApart n

abbrev Eagerness.shared (σ : Eagerness) : Eagerness := { σ with sharing := true }

theorem Eagerness.Alike.shared {σ : Eagerness} (hσ : σ.loose = false) : σ.Alike σ.shared :=
  ⟨rfl, hσ, hσ⟩

theorem Eagerness.Fits.shared {σ : Eagerness} {c : Config} (hσ : σ.Fits c) : σ.shared.Fits c :=
  ⟨hσ.binding, hσ.cons⟩

/-- The computations succeed from the store, all alike for every number that is large enough. -/
abbrev Completes {α : Type} (x : Nat → Eval Address Layout α) (t : Store Address Layout) : Prop :=
  Yields x t (fun _ _ => True)

/-! ## Expressions that take much work -/

/-- The expression cannot be evaluated with less than `h` to do, in this environment or in one of
twins. -/
def Hard (σ : Eagerness) (B : Bindings Address Layout) (h : Nat) (env : Env) (e : AddressedExpr) :
    Prop :=
  ∀ k < h, ∀ env' v, EnvTwins B B env' env → ¬Means σ B k env' e v

/-- Reading a slot that was bound to `y` takes at least `h`. -/
def Blocked (σ : Eagerness) (B C : Bindings Address Layout) (h : Nat) (y : Bound Address Layout) :
    Prop :=
  ∃ env, EnvTwins B C env y.env ∧ ∃ e ∈ y.expr :: y.before, Hard σ B h env e

variable {σ : Eagerness} {m : Machine} {B C C' : Bindings Address Layout} {h k : Nat}
  {t t' : Store Address Layout} {env env' : Env} {e : AddressedExpr} {v : Value Address Layout}

/-- Among the ways in which an expression means something there is a shortest one. -/
theorem Means.exists_hard (hm : Means σ B k env e v) (henv : EnvTwins B C env env') :
    ∃ k0 ≤ k, ∃ env0 v0, EnvTwins B C env0 env' ∧ Means σ B k0 env0 e v0 ∧
      Hard σ B k0 env0 e := by
  classical
  have hex : ∃ k0, ∃ env0 v0, EnvTwins B C env0 env' ∧ Means σ B k0 env0 e v0 :=
    ⟨k, env, v, henv, hm⟩
  obtain ⟨env0, v0, henv0, hm0⟩ := Nat.find_spec hex
  refine ⟨Nat.find hex, Nat.find_min' hex ⟨env, v, henv, hm⟩, env0, v0, henv0, hm0, ?_⟩
  intro k' hk' env1 v1 henv1 hm1
  exact Nat.find_min hex hk' ⟨env1, v1, henv1.trans henv0, hm1⟩

variable {y : Bound Address Layout}

theorem Blocked.mono (hC : C <+: C') (hk : k ≤ h) (hy : Blocked σ B C h y) :
    Blocked σ B C' k y := by
  obtain ⟨env, henv, e, he, hhard⟩ := hy
  exact ⟨env, henv.mono hC, e, he, fun k' hk' => hhard k' (by omega)⟩

/-- A slot that can be read is not blocked. -/
theorem Reads.not_blocked (hr : Reads σ B h i v) (hij : Twins B C i j) (hj : C[j]? = some y) :
    ¬Blocked σ B C h y := by
  rintro ⟨env, henv, e, he, hhard⟩
  obtain ⟨hk, hi, w, hbefore, hv⟩ := hr
  obtain ⟨x, y', hx, hy', hxy⟩ := Twins.matching B C i j hij
  cases hi.symm.trans hx
  cases hj.symm.trans hy'
  have hsame := EnvTwins.trans hxy.env henv.symm
  rw [hxy.expr, hxy.before] at he
  rcases List.mem_cons.mp he with rfl | he
  · exact hhard _ hk _ _ hsame hv
  · exact hhard _ hk _ _ hsame (hbefore e he)

/-- In a frame that is bound at once, the slots from some place on are read only after the
expression at this place. -/
theorem Bindings.Row.bound_after {b : Binding} (hD : D <+: C)
    (hb : D[b.slot]? = some ⟨e, env, if true then seen else [], .variable⟩)
    (hbs : D.Row true env (seen ++ [e]) bs es) (hi : C[i]? = some y)
    (hmem : i ∈ (b :: bs).map Binding.slot) : y.env = env ∧ e ∈ y.expr :: y.before := by
  have hafter : ∀ {seen : List AddressedExpr} {bs : List Binding} {es : List AddressedExpr},
      D.Row true env seen bs es → e ∈ seen → i ∈ bs.map Binding.slot →
      y.env = env ∧ e ∈ y.expr :: y.before := by
    intro seen bs es hrow he hmem
    induction hrow with
    | nil => cases hmem
    | cons hb hbs ih =>
      rcases List.mem_cons.mp hmem with rfl | hmem
      · cases hi.symm.trans (Bindings.getElem?_mono hD hb)
        exact ⟨rfl, List.mem_cons_of_mem _ he⟩
      · exact ih (List.mem_append_left _ he) hmem
  rcases List.mem_cons.mp hmem with rfl | hmem
  · cases hi.symm.trans (Bindings.getElem?_mono hD hb)
    exact ⟨rfl, List.mem_cons_self⟩
  · exact hafter hbs (List.mem_append_right seen (List.mem_singleton_self e)) hmem

/-! ## Stores with room for some work -/

/-- The store has room for expressions with at most `h` to do: the depth limit is not reached, and
the slots that are open are blocked, except for those in `skip`. -/
structure Admits (σ : Eagerness) (B C : Bindings Address Layout) (m : Machine) (skip : List Nat)
    (h : Nat) (t : Store Address Layout) : Prop where
  strict : σ.loose = false
  traces : Traces σ.shared C m t
  room : t.depth m + h ≤ m.config.maxDepth
  blocked : ∀ (i : Nat) (y : Bound Address Layout), C[i]? = some y → (t.slot i).isOpen = true →
    i ∈ skip ∨ Blocked σ B C h y

namespace Admits

variable {skip skip' : List Nat}

theorem lower (hs : Admits σ B C m skip h t) (hk : k ≤ h) : Admits σ B C m skip k t := by
  have hroom := hs.room
  refine ⟨hs.strict, hs.traces, by omega, fun i y hi ho => ?_⟩
  exact (hs.blocked i y hi ho).imp id (fun hy => hy.mono (List.prefix_refl C) hk)

/-- A computation that opens no slot leaves as much room as there was. -/
theorem settle (hs : Admits σ B C m skip h t) (hC : C <+: C') (ht' : Traces σ.shared C' m t')
    (hsettles : Settles m t t')
    (hclosed : ∀ i ∈ skip, (t'.slot i).isOpen = true → i ∈ skip') :
    Admits σ B C' m skip' h t' := by
  refine ⟨hs.strict, ht', by rw [hsettles.depth]; exact hs.room, fun i y hi ho => ?_⟩
  have hlt : i < t'.slots.size := ht'.size ▸ (List.getElem?_eq_some_iff.mp hi).1
  obtain ⟨hlt0, ho0⟩ := hsettles.closed i hlt ho
  rw [← hs.traces.size] at hlt0
  have hi0 : C[i]? = some y := by
    rw [List.prefix_iff_getElem?.mp hC i hlt0] at hi
    rw [List.getElem?_eq_getElem hlt0, hi]
  rcases hs.blocked i y hi0 ho0 with hmem | hy
  · exact .inl (hclosed i hmem ho)
  · exact .inr (hy.mono hC le_rfl)

/-- A new frame whose slots wait for their turn. -/
theorem newFrame (hs : Admits σ B C m [] h t) (hes : Expr.allPure es = true)
    (hlen : names.length = es.length) (env : Env) :
    Admits σ B (C ++ bound σ.binding env [] es) m ((t.newFrame names).1.map Binding.slot) h
      (t.newFrame names).2 := by
  refine ⟨hs.strict, (hs.traces.newFrame hes hlen σ.binding env).1, hs.room,
    fun i y hi ho => ?_⟩
  by_cases hlt : i < C.length
  · rw [List.getElem?_append_left hlt] at hi
    rw [Store.slot_newFrame] at ho
    rcases hs.blocked i y hi ho with hmem | hy
    · cases hmem
    · exact .inr (hy.mono (List.prefix_append C _) le_rfl)
  · have hi := (List.getElem?_eq_some_iff.mp hi).1
    rw [List.length_append, length_bound] at hi
    have hsize := hs.traces.size
    refine .inl ?_
    rw [Store.map_slot_newFrame, List.mem_range'_1]
    omega

/-- The slot of an expression is closed to readers while the expression is evaluated. -/
theorem forcing (hs : Admits σ B C m [] h t) (hi : C[i]? = some y)
    (hpurpose : σ.shared.cons = true → y.purpose = .variable) (hk : k ≤ h)
    (hy : Blocked σ B C k y) : Admits σ B C m [] k (t.setSlot i .forcing) := by
  have hroom := hs.room
  refine ⟨hs.strict, hs.traces.setSlot hi hpurpose, ?_, fun j z hj ho => ?_⟩
  · change t.depth m + k ≤ _
    omega
  · rw [Store.slot_setSlot] at ho
    split at ho
    · rename_i heq
      cases heq.1
      cases hi.symm.trans hj
      exact .inr hy
    · exact (hs.lower hk).blocked j z hj ho

end Admits

/-- From a store that admits it the computations succeed, and `Q` holds of the result in a store
with as much room as before. -/
def Repeats {α : Type} (σ : Eagerness) (B : Bindings Address Layout) (m : Machine) (h : Nat)
    (C : Bindings Address Layout) (t : Store Address Layout) (x : Nat → Eval Address Layout α)
    (Q : Bindings Address Layout → α → Prop) : Prop :=
  Yields x t (fun a t' => ∃ C', C <+: C' ∧ Admits σ B C' m [] h t' ∧ Q C' a)

namespace Repeats

variable {α β : Type} {x : Nat → Eval Address Layout α} {Q Q' : Bindings Address Layout → α → Prop}

/-- What succeeds and is traced leaves as much room as there was. -/
theorem of_traced (hs : Admits σ B C m [] h t) (hx : Completes x t)
    (htraced : ∀ n, Traced σ.shared m C t (x n) Q) : Repeats σ B m h C t x Q := by
  obtain ⟨a, t', ⟨N, hN⟩, -⟩ := hx
  obtain ⟨C', hC, ht', hsettles, hQ⟩ := htraced N a t' (hN N le_rfl)
  exact ⟨a, t', ⟨N, hN⟩, C', hC, hs.settle hC ht' hsettles nofun, hQ⟩

theorem imp (hx : Repeats σ B m h C t x Q) (hQ : ∀ C' a, C <+: C' → Q C' a → Q' C' a) :
    Repeats σ B m h C t x Q' := by
  refine Yields.mono hx ?_
  rintro a t' ⟨C', hC, hs', ha⟩
  exact ⟨C', hC, hs', hQ C' a hC ha⟩

theorem bind {f : Nat → α → Eval Address Layout β} (hx : Repeats σ B m h C t x Q)
    (hf : ∀ C' t' a, Admits σ B C' m [] h t' → C <+: C' → Q C' a → Completes (fun n => f n a) t') :
    Completes (fun n => x n >>= f n) t := by
  refine Yields.bind hx ?_
  rintro a t' ⟨C', hC, hs', ha⟩
  exact hf C' t' a hs' hC ha

end Repeats

/-! ## Following an expression -/

/-- Whatever means something with less than `h` to do can be evaluated. -/
def FollowsBelow (σ : Eagerness) (B : Bindings Address Layout) (m : Machine) (h : Nat) : Prop :=
  ∀ k < h, ∀ C t env env' e v, Means σ B k env e v → e.isPure = true → EnvTwins B C env env' →
    Admits σ B C m [] k t → Completes (fun n => evalApart n m env' e) t

/-- What this run finds means something to it. -/
theorem Traced.evalApart (hσ : σ.Fits m.config) (n : Nat) :
    EvaluatorTraced σ.shared m (Mapling.evalApart n) :=
  Traced.eval (ComparisonTraced.equalsApart (σ := σ.shared) rfl) hσ.shared n

/-- The result is a twin of what the expression means. -/
theorem FollowsBelow.give (ih : FollowsBelow σ B m h) (hσ : σ.Fits m.config) (hk : k < h)
    (hm : Means σ B k env e v) (hpure : e.isPure = true) (henv : EnvTwins B C env env')
    (hs : Admits σ B C m [] h t) :
    Repeats σ B m h C t (fun n => evalApart n m env' e)
      (fun C' v' => ValueTwins B C' v v' ∧ C'.Gives σ.shared v') := by
  refine (Repeats.of_traced hs
    (ih k hk C t env env' e v hm hpure henv (hs.lower (Nat.le_of_lt hk)))
    (fun n => Traced.evalApart hσ n C t env' e hpure hs.traces)).imp ?_
  rintro C' v' hC ⟨h', hm'⟩
  exact ⟨hm.twins (.shared hs.strict) hm' (henv.mono hC), h', env', e, hm'⟩

theorem FollowsBelow.run (ih : FollowsBelow σ B m h) (hσ : σ.Fits m.config) (hk : k < h)
    (hm : Means σ B k env e v) (hpure : e.isPure = true) (henv : EnvTwins B C env env')
    (hs : Admits σ B C m [] h t) :
    Repeats σ B m h C t (fun n => evalApart n m env' e) (fun C' v' => ValueTwins B C' v v') :=
  (ih.give hσ hk hm hpure henv hs).imp (fun _ _ _ hv' => hv'.1)

theorem Eval.primitive_of_inspect? {z : Scalar} (hp : p.inspect? v = some z) :
    Eval.primitive n ev p v = pure z.value := by
  cases p with
  | arity =>
    cases v with
    | closure | prim =>
      cases hp
      rfl
    | _ => cases hp
  | cons | first | rest => cases v <;> cases hp
  | _ =>
    cases hp
    rfl

theorem Eval.applyPrim_eq (hp : p ≠ .cons) :
    Eval.applyPrim n ev m env p [e] = (do Eval.primitive n ev p (← ev m env e)) := by
  cases p with
  | cons => exact absurd rfl hp
  | _ => rfl

namespace Completes

section

variable {α : Type} {x : Nat → Eval Address Layout α}

theorem of_eq (a : α) (hx : ∀ n, x n = pure a) : Completes x t :=
  .of_outcome a t (fun n => by rw [hx]; rfl) trivial

theorem larger (hx : Completes x t) (hf : ∀ n, n ≤ f n) : Completes (fun n => x (f n)) t := by
  obtain ⟨a, t', ⟨N, hN⟩, -⟩ := hx
  exact ⟨a, t', ⟨N, fun n hn => hN (f n) (hn.trans (hf n))⟩, trivial⟩

/-- One level deeper there is less room. -/
theorem nested (hs : Admits σ B C m [] k t) (hroom : t.depth m + k < m.config.maxDepth)
    (hx : ∀ t1, Admits σ B C m [] k t1 → Completes x t1) :
    Completes (fun n => Eval.nested m (x n)) t := by
  have henter : outcome (Eval.enter m : Eval Address Layout Unit) t =
      some (.ok ⟨⟩, t.setDepth m (t.depth m + 1)) := by
    rw [Eval.enter, outcome_bind_of_ok _ (outcome_get t)]
    dsimp only
    rw [if_pos (by omega)]
    rfl
  have hs1 : Admits σ B C m [] k (t.setDepth m (t.depth m + 1)) := by
    refine ⟨hs.strict, hs.traces.setDepth _, ?_, hs.blocked⟩
    rw [Store.depth_setDepth hs.traces.counter]
    omega
  refine Yields.step ⟨⟩ _ henter ?_
  obtain ⟨a, t2, ⟨N, hN⟩, -⟩ := hx _ hs1
  refine ⟨a, t2.setDepth m (t2.depth m - 1), ⟨N, fun n hn => ?_⟩, trivial⟩
  have hact := hN n hn
  dsimp only at hact ⊢
  rw [Eval.outcome_andThen, hact]
  rfl

end

/-! ### Slots -/

/-- A slot that can be read is read. -/
theorem force (ih : FollowsBelow σ B m h) (hr : Reads σ B h i v) (hij : Twins B C i j)
    (hs : Admits σ B C m [] h t) (label : String) :
    Completes (fun n => Eval.force (evalApart n) label j) t := by
  obtain ⟨x, y, hx, hy, hxy⟩ := Twins.matching B C i j hij
  have hpure := hs.traces.pure j y hy
  have hholds := hs.traces.slot j y hy
  have hopen : (t.slot j).isOpen = false := by
    refine Bool.eq_false_iff.mpr (fun ho => ?_)
    rcases hs.blocked j y hy ho with hmem | hblocked
    · cases hmem
    · exact hr.not_blocked hij hy hblocked
  obtain ⟨hk, hx', w, -, hv⟩ := hr
  cases hx.symm.trans hx'
  rw [← hxy.expr] at hv
  -- the expression of the slot is evaluated one level deeper, the shortest way
  obtain ⟨k, hle, env0, v0, henv0, hv0, hhard⟩ := hv.exists_hard hxy.env
  have hk : k < h := by omega
  have hroom := hs.room
  have hresume : ∀ {t1 : Store Address Layout}, Admits σ B C m [] k t1 → t1.depth m = t.depth m →
      Completes (fun n => Eval.resume (evalApart n) ⟨y.expr, y.env, m⟩) t1 := by
    intro t1 hs1 hdepth
    have hroom1 : t1.depth m + k < m.config.maxDepth := by omega
    exact nested hs1 hroom1
      (fun t2 hs2 => ih k hk C t2 env0 y.env y.expr v0 hv0 hpure henv0 hs2)
  refine Yields.step t t (outcome_get t) ?_
  generalize hslot : t.slot j = z at hholds hopen ⊢
  cases z with
  | uninit | forcing => cases hopen
  | ready u => exact of_eq u (fun _ => rfl)
  | byName z =>
    obtain ⟨⟨-, rfl, -, -⟩, -⟩ := hholds
    exact hresume (hs.lower (Nat.le_of_lt hk)) rfl
  | byNeed z =>
    obtain ⟨-, rfl, -, hpurpose⟩ := hholds
    have hs1 : Admits σ B C m [] k (t.setSlot j .forcing) :=
      hs.forcing hy hpurpose (Nat.le_of_lt hk)
        ⟨env0, henv0, y.expr, List.mem_cons_self, hhard⟩
    refine Yields.step ⟨⟩ (t.setSlot j .forcing) rfl ?_
    obtain ⟨u, t2, ⟨N, hN⟩, -⟩ := hresume hs1 rfl
    refine ⟨u, t2.setSlot j (.ready u), ⟨N, fun n hn => ?_⟩, trivial⟩
    have hact := hN n hn
    dsimp only at hact ⊢
    rw [Eval.outcome_settle, hact]
    rfl

/-- What is read is a twin of the value of the slot. -/
theorem read (ih : FollowsBelow σ B m h) (hσ : σ.Fits m.config) (hr : Reads σ B h i v)
    (hij : Twins B C i j) (hs : Admits σ B C m [] h t) (label : String) (hf : ∀ n, n ≤ f n) :
    Repeats σ B m h C t (fun n => Eval.force (evalApart (f n)) label j)
      (fun C' v' => ValueTwins B C' v v' ∧ C'.Gives σ.shared v') := by
  refine (Repeats.of_traced hs (larger (force ih hr hij hs label) hf)
    (fun n => Traced.force (fun _ => Traced.evalApart hσ (f n)) hs.traces label j)).imp ?_
  rintro C' v' hC ⟨h', hr'⟩
  exact ⟨hr.twins (.shared hs.strict) hr' (hij.mono hC), hr'.gives⟩

theorem readTail (ih : FollowsBelow σ B m h) (hσ : σ.Fits m.config) (hr : Reads σ B h i v)
    (hlist : v.isList = true) (hij : Twins B C i j) (hs : Admits σ B C m [] h t)
    (hf : ∀ n, n ≤ f n) :
    Repeats σ B m h C t (fun n => Eval.forceTail n (evalApart (f n)) j)
      (fun C' v' => ValueTwins B C' v v' ∧ C'.Gives σ.shared v') := by
  have htail : Completes (fun n => Eval.forceTail n (evalApart (f n)) j) t := by
    refine (read ih hσ hr hij hs _ hf).bind ?_
    rintro C' t' v' - - ⟨hv', -⟩
    simp only [hv'.isList_eq, hlist, if_true]
    exact of_eq v' (fun _ => rfl)
  refine (Repeats.of_traced hs htail
    (fun n => Traced.forceTail (fun _ => Traced.evalApart hσ (f n)) hs.traces j)).imp ?_
  rintro C' v' hC ⟨⟨h', hr'⟩, -⟩
  exact ⟨hr.twins (.shared hs.strict) hr' (hij.mono hC), hr'.gives⟩

/-- A literal, a primitive or a function is evaluated without reading any slot. -/
theorem immediate (he : e.isImmediate = true) :
    Completes (fun n => evalApart n m env e) t := by
  refine Yields.succ ?_
  cases e with
  | int sp k => exact of_eq (.int k) (fun _ => rfl)
  | bool sp b => exact of_eq (.bool b) (fun _ => rfl)
  | null sp => exact of_eq .null (fun _ => rfl)
  | prim sp p => exact of_eq (.prim p) (fun _ => rfl)
  | map sp params layout body =>
    exact .of_outcome (t.newClosure ⟨params, layout, body, env⟩).1
      (t.newClosure ⟨params, layout, body, env⟩).2 (fun _ => rfl) trivial
  | _ => cases he

/-- What is bound is evaluated, if it has to be. -/
theorem defer {policy : Policy}
    (heval : policy.isLazy = false → Completes (fun n => evalApart n m env e) t) :
    Completes (fun n => Eval.defer (evalApart n) m env policy e) t := by
  have hnow : Completes (fun n => evalApart n m env e) t →
      Completes (fun n => do return Slot.ready (← evalApart n m env e)) t :=
    fun hx => Yields.bind hx (fun v' t' _ => of_eq (.ready v') (fun _ => rfl))
  unfold Eval.defer
  split
  · rename_i himmediate
    exact hnow (immediate himmediate)
  · cases policy with
    | value => exact hnow (heval rfl)
    | name => exact of_eq (.byName ⟨e, env, m⟩) (fun _ => rfl)
    | need => exact of_eq (.byNeed ⟨e, env, m⟩) (fun _ => rfl)

/-! ### Frames -/

section

variable (ih : FollowsBelow σ B m h)
include ih

/-- Binding the expressions of a frame, each with the slots after it still open. -/
theorem bindEach (hσ : σ.Fits m.config) (hk : k < h) (hes : Expr.allPure es = true)
    (hrow : D.Row σ.binding env' seen bs es) (hD : D <+: C)
    (hseen : σ.binding = true → ∀ e ∈ seen, ∃ h v, Means σ.shared C h env' e v)
    (hmeans : σ.binding = true → ∀ e ∈ es, ∃ v, Means σ B k env e v) (henv : EnvTwins B C env env')
    (hs : Admits σ B C m (bs.map Binding.slot) h t) :
    Completes (fun n => Eval.bindEach (evalApart n) m env' bs es) t := by
  induction hrow generalizing C t with
  | nil => exact of_eq ⟨⟩ (fun _ => rfl)
  | @cons seen b bs e es hb hbs ihs =>
    rw [Expr.allPure, Bool.and_eq_true] at hes
    have hdefer : Completes (fun n => Eval.defer (evalApart n) m env' m.config.binding e) t := by
      refine defer (fun hstrict => ?_)
      have heager : σ.binding = true := by
        rw [hσ.binding, hstrict]
        rfl
      obtain ⟨v, hv⟩ := hmeans heager e List.mem_cons_self
      -- the slots that are still to be bound are read only after this expression
      obtain ⟨k0, hle, env0, v0, henv0, hv0, hhard⟩ := hv.exists_hard henv
      have hroom := hs.room
      refine ih k0 (by omega) C t env0 env' e v0 hv0 hes.1 henv0
        ⟨hs.strict, hs.traces, by omega, fun i y hi ho => .inr ?_⟩
      rcases hs.blocked i y hi ho with hmem | hy
      · rw [heager] at hbs hb
        obtain ⟨hyenv, hemem⟩ := Bindings.Row.bound_after hD hb hbs hi hmem
        exact ⟨env0, hyenv ▸ henv0, e, hemem, hhard⟩
      · exact hy.mono (List.prefix_refl C) (by omega)
    obtain ⟨x, t1, ⟨N, hN⟩, -⟩ := hdefer
    have hb' := Bindings.getElem?_mono hD hb
    obtain ⟨C1, hC1, ht1, hsettles, hclosed, hseen1⟩ :=
      Traced.bindNext (Traced.evalApart hσ N) hσ.shared hes.1 hb' hseen hs.traces
        (hN N le_rfl)
    have hs1 : Admits σ B C1 m (bs.map Binding.slot) h (t1.setSlot b.slot x) := by
      refine hs.settle hC1 ht1 hsettles (fun i hi ho => ?_)
      rcases List.mem_cons.mp hi with rfl | hi
      · rw [hclosed] at ho
        cases ho
      · exact hi
    refine Yields.bind (⟨x, t1, ⟨N, hN⟩, rfl, rfl⟩ :
      Yields _ t (fun x' t' => x' = x ∧ t' = t1)) ?_
    rintro _ _ ⟨rfl, rfl⟩
    exact Yields.step ⟨⟩ _ rfl (ihs hes.2 (hD.trans hC1) hseen1
      (fun heager e' he' => hmeans heager e' (List.mem_cons_of_mem e he')) (henv.mono hC1) hs1)

/-- Making a frame and binding its expressions. -/
theorem bindFrame (hσ : σ.Fits m.config) (hk : k < h) (kind : LetKind) {α : Type}
    (hes : Expr.allPure es = true) (hlen : names.length = es.length)
    (hrow : B.Row σ.binding (kind.scope frame env) [] frame es)
    (hmeans : σ.binding = true → ∀ e ∈ es, ∃ v, Means σ B k (kind.scope frame env) e v)
    (henv : EnvTwins B C env env') (hs : Admits σ B C m [] h t)
    {f : Nat → Frame → Eval Address Layout α}
    (hf : ∀ C' t' frame', Admits σ B C' m [] h t' → C <+: C' → FramePairs (Twins B C') frame frame'
      → Completes (fun n => f n frame') t') :
    Completes (fun n => do
      let frame' ← EvalOps.newFrame names
      Eval.bindEach (evalApart n) m (kind.scope frame' env') frame' es
      f n frame') t := by
  have hs1 := hs.newFrame hes hlen (kind.scope (t.newFrame names).1 env')
  obtain ⟨-, hrow'⟩ :=
    hs.traces.newFrame hes hlen σ.binding (kind.scope (t.newFrame names).1 env')
  have hC1 : C <+: C ++ bound σ.binding (kind.scope (t.newFrame names).1 env') [] es :=
    List.prefix_append _ _
  have hframe := hrow.twins kind hrow' (henv.mono hC1)
  have hscope : EnvTwins B (C ++ bound σ.binding (kind.scope (t.newFrame names).1 env') [] es)
      (kind.scope frame env) (kind.scope (t.newFrame names).1 env') := by
    cases kind with
    | plain => exact henv.mono hC1
    | recursive => exact .cons hframe (henv.mono hC1)
  refine Yields.step (t.newFrame names).1 (t.newFrame names).2 rfl ?_
  obtain ⟨⟨⟩, t2, ⟨N, hN⟩, -⟩ :=
    bindEach ih hσ hk hes hrow' (List.prefix_refl _) nofun hmeans hscope hs1
  obtain ⟨C2, hC2, ht2, hsettles, hclosed, -⟩ := Traced.bindEach (Traced.evalApart hσ N)
    hσ.shared hes hrow' (List.prefix_refl _) nofun hs1.traces (hN N le_rfl)
  have hs2 : Admits σ B C2 m [] h t2 := by
    refine hs1.settle hC2 ht2 hsettles (fun i hi ho => ?_)
    obtain ⟨b, hb, rfl⟩ := List.mem_map.mp hi
    rw [hclosed b hb] at ho
    cases ho
  refine Yields.bind (⟨⟨⟩, t2, ⟨N, hN⟩, rfl⟩ : Yields _ _ (fun _ t' => t' = t2)) ?_
  rintro ⟨⟩ _ rfl
  exact hf C2 _ _ hs2 (hC1.trans hC2) (List.Forall₂.imp (fun _ _ => Twins.mono hC2) hframe)

/-! ### Operators -/

theorem logical (hσ : σ.Fits m.config) (hk : k < h) {op : BinaryOp} {d c : Bool}
    {l r : AddressedExpr} (hl : Means σ B k env l (.bool b))
    (hr : b ≠ d → Means σ B k env r (.bool c)) (hlp : l.isPure = true) (hrp : r.isPure = true)
    (henv : EnvTwins B C env env') (hs : Admits σ B C m [] h t) :
    Completes (fun n => Eval.logical n (evalApart n) m env' op d l r) t := by
  refine (ih.run hσ hk hl hlp henv hs).bind (fun C1 t1 v' hs1 hC1 hv' => ?_)
  cases hv'
  by_cases hb : b = d
  · simp only [hb, if_true]
    exact of_eq (.bool d) (fun _ => rfl)
  · simp only [hb, if_false]
    refine (ih.run hσ hk (hr hb) hrp (henv.mono hC1) hs1).bind (fun C2 t2 w' _ _ hw' => ?_)
    cases hw'
    exact of_eq (.bool c) (fun _ => rfl)

/-- Twins are compared like the values, part by part. -/
theorem compare (hσ : σ.Fits m.config) (hsharing : σ.sharing = false) {v' w' : Value Address Layout}
    (hc : Compares σ B k v w b) (hk : k ≤ h) (hv : ValueTwins B C v v') (hw : ValueTwins B C w w')
    (hs : Admits σ B C m [] h t) (hf : ∀ n, n ≤ f n) :
    Completes (fun n => Eval.equalsApart n (evalApart (f n)) v' w') t := by
  induction k using Nat.strong_induction_on generalizing C t v w b v' w' f with
  | _ k ihk =>
    refine Yields.succ ?_
    have hB := List.prefix_refl B
    have hf' : ∀ n, n ≤ f (n + 1) := fun n => by
      have := hf (n + 1)
      omega
    -- the parts are compared one after the other, unless the first ones differ
    have hparts : ∀ {l i j i' j' a b a' b' x x'} {c : Bool}, l < k → Reads σ B l i x →
        Reads σ B l i' x' → Compares σ B l x x' c → Twins B C i a → Twins B C j b →
        Twins B C i' a' → Twins B C j' b' →
        (c = true → ∃ y y' d, Reads σ B l j y ∧ Reads σ B l j' y' ∧ y.isList = true ∧
          y'.isList = true ∧ Compares σ B l y y' d) →
        Completes (fun n =>
          Eval.equalsApart (n + 1) (evalApart (f (n + 1))) (.pair a b) (.pair a' b')) t := by
      intro l i j i' j' a b a' b' x x' c hl hx hx' hc ha hb ha' hb' htails
      simp only [Eval.equalsApart, Eval.equalsBy]
      split
      · exact of_eq true (fun _ => rfl)
      · refine (read ih hσ (hx.mono hB (by omega)) ha hs _ hf').bind ?_
        rintro C1 t1 p hs1 hC1 ⟨hp, hgp⟩
        refine (read ih hσ (hx'.mono hB (by omega)) (ha'.mono hC1) hs1 _ hf').bind ?_
        rintro C2 t2 q hs2 hC2 ⟨hq, hgq⟩
        have hheads : Repeats σ B m h C2 t2
            (fun n => Eval.equalsApart n (evalApart (f (n + 1))) p q) (fun _ c' => c' = c) := by
          refine (Repeats.of_traced hs2 (ihk l hl hc (by omega) (hp.mono hC2) hq hs2 hf')
            (fun n => ComparisonTraced.equalsApart (σ := σ.shared) rfl n _ (Traced.evalApart hσ _)
              hs2.traces (hgp.mono hC2) hgq)).imp ?_
          rintro C' c' hC' ⟨h', hc'⟩
          exact hc.unique (.shared hs.strict) hc' (hp.mono (hC2.trans hC')) (hq.mono hC')
        refine hheads.bind ?_
        rintro C3 t3 c' hs3 hC3 rfl
        cases c' with
        | false => exact of_eq false (fun _ => rfl)
        | true =>
          obtain ⟨y, y', d, hy, hy', hlist, hlist', hd⟩ := htails rfl
          have hC := (hC1.trans hC2).trans hC3
          refine (readTail ih hσ (hy.mono hB (by omega)) hlist (hb.mono hC) hs3 hf').bind ?_
          rintro C4 t4 p' hs4 hC4 ⟨hp', -⟩
          refine (readTail ih hσ (hy'.mono hB (by omega)) hlist' (hb'.mono (hC.trans hC4)) hs4
            hf').bind ?_
          rintro C5 t5 q' hs5 hC5 ⟨hq', -⟩
          exact ihk l hl hd (by omega) (hp'.mono hC5) hq' hs5 hf'
    cases hc with
    | same hshared => cases hsharing.symm.trans hshared
    | loose hloose => cases hs.strict.symm.trans hloose
    | atoms hpairs hvc hwc =>
      have hpairs' : ¬∃ i j i' j', v' = .pair i j ∧ w' = .pair i' j' := by
        rintro ⟨i, j, i', j', rfl, rfl⟩
        cases hv
        cases hw
        exact hpairs ⟨_, _, _, _, rfl, rfl⟩
      simp only [Eval.equalsApart, Eval.equalsBy_atoms _ hpairs', hv.isClosure_eq,
        hw.isClosure_eq, hvc, hwc]
      exact of_eq (Eval.sameAtom v' w') (fun _ => rfl)
    | heads hl hi hi' hx =>
      cases hv with
      | pair ha hb =>
        cases hw with
        | pair ha' hb' => exact hparts hl hi hi' hx ha hb ha' hb' (by rintro ⟨⟩)
    | tails hl hi hi' hx hj hj' hlist hlist' hy =>
      cases hv with
      | pair ha hb =>
        cases hw with
        | pair ha' hb' =>
          exact hparts hl hi hi' hx ha hb ha' hb' (fun _ => ⟨_, _, _, hj, hj', hlist, hlist', hy⟩)

/-! ### Applications -/

/-- Making a pair. -/
theorem cons (hσ : σ.Fits m.config) (hk : k < h) {e1 e2 : AddressedExpr}
    (h1 : σ.cons = true → Means σ B k env e1 v) (h2 : σ.cons = true → Means σ B k env e2 w)
    (hlist : σ.cons = true → w.isList = true) (hp1 : e1.isPure = true) (hp2 : e2.isPure = true)
    (henv : EnvTwins B C env env') (hs : Admits σ B C m [] h t) :
    Completes (fun n => Eval.cons n (evalApart n) m env' e1 e2) t := by
  have hstrict : m.config.cons.isLazy = false → σ.cons = true := by
    intro hlazy
    rw [hσ.cons, hlazy]
    rfl
  have hdefer : ∀ {C t e} {v : Value Address Layout}, (σ.cons = true → Means σ B k env e v) →
      e.isPure = true → EnvTwins B C env env' → Admits σ B C m [] h t →
      Repeats σ B m h C t (fun n => Eval.defer (evalApart n) m env' m.config.cons e)
        (fun C' x => Deferred σ.shared C' m env' m.config.cons e x) := by
    intro C t e v he hpure henv hs
    refine Repeats.of_traced hs (defer (fun hlazy => ?_))
      (fun n => Traced.defer (Traced.evalApart hσ n) hs.traces hpure _)
    exact ih k hk C t env env' e v (he (hstrict hlazy)) hpure henv (hs.lower (Nat.le_of_lt hk))
  refine (hdefer h1 hp1 henv hs).bind (fun C1 t1 x hs1 hC1 _ => ?_)
  refine (hdefer h2 hp2 (henv.mono hC1) hs1).bind (fun C2 t2 y hs2 hC2 hy => ?_)
  have hnew : Completes (fun _ => modifyGet (fun s => s.newPair x y)) t2 :=
    .of_outcome (t2.newPair x y).1 (t2.newPair x y).2 (fun _ => rfl) trivial
  -- a second part that had to be evaluated is a list
  cases hpolicy : m.config.cons with
  | value =>
    have heager := hstrict (by rw [hpolicy]; rfl)
    obtain ⟨w', h', rfl, hw'⟩ := hy.means (by rw [hpolicy]; rfl)
    have htwins := (h2 heager).twins (.shared hs.strict) hw' (henv.mono (hC1.trans hC2))
    simp only [htwins.isList_eq, hlist heager, if_true]
    exact hnew
  | name | need => exact hnew

/-- Applying a primitive to one argument. -/
theorem applyPrim (hσ : σ.Fits m.config) (hk : k < h) (hp : p ≠ .cons) (he : Means σ B k env e v)
    (hpure : e.isPure = true) (henv : EnvTwins B C env env') (hs : Admits σ B C m [] h t)
    (hprim : ∀ C' t' v', Admits σ B C' m [] h t' → ValueTwins B C' v v' → Completes (fun n =>
      Eval.primitive n (evalApart n) p v') t') :
    Completes (fun n => Eval.applyPrim n (evalApart n) m env' p [e]) t := by
  simp only [Eval.applyPrim_eq hp]
  exact (ih.run hσ hk he hpure henv hs).bind (fun C' t' v' hs' _ hv' => hprim C' t' v' hs' hv')

/-- Calling a function. -/
theorem call (hσ : σ.Fits m.config) (hk : k < h) {f : AddressedExpr} {args : List AddressedExpr}
    {params : List Ident} {layout : Layout} {body : AddressedExpr} {outer outer' : Env}
    (hlen : args.length = params.length) (hrow : B.Row σ.binding env [] frame args)
    (hargs : σ.binding = true → ∀ e ∈ args, ∃ v, Means σ B k env e v)
    (hbody : Means σ B k (frame :: outer) body v) (hargsPure : Expr.allPure args = true)
    (hbodyPure : body.isPure = true) (houter : EnvTwins B C outer outer')
    (henv : EnvTwins B C env env') (hs : Admits σ B C m [] h t) :
    Completes (fun n =>
      Eval.applyClosure (evalApart n) m env' f ⟨params, layout, body, outer'⟩ args) t := by
  simp only [Eval.applyClosure, Eval.applyClosureBy, Closure.arity, hlen, ne_eq,
    not_true_eq_false, if_false]
  refine bindFrame ih hσ hk .plain hargsPure ((List.length_map _).trans hlen.symm) hrow
    hargs henv hs (fun C1 t1 frame' hs1 hC1 hframe => ?_)
  have hroom := hs1.room
  refine nested (hs1.lower (Nat.le_of_lt hk)) (by omega) (fun t2 hs2 => ?_)
  exact ih k hk C1 t2 _ _ body v hbody hbodyPure (.cons hframe (houter.mono hC1)) hs2

/-! ### Expressions -/

/-- One step of the induction: with everything taken care of that has less to do. -/
theorem step (hσ : σ.Fits m.config) (hsharing : σ.sharing = false)
    (hB : ∀ (i : Nat) (y : Bound Address Layout), B[i]? = some y → y.expr.isPure = true)
    (hm : Means σ B h env e v) (hpure : e.isPure = true) (henv : EnvTwins B C env env')
    (hs : Admits σ B C m [] h t) :
    Completes (fun n => evalApart (n + 1) m env' e) t := by
  cases hm with
  | int n => exact of_eq (.int n) (fun _ => rfl)
  | bool b => exact of_eq (.bool b) (fun _ => rfl)
  | null => exact of_eq .null (fun _ => rfl)
  | prim p => exact of_eq (.prim p) (fun _ => rfl)
  | map id => exact .of_outcome _ _ (fun _ => rfl) trivial
  | @var _ _ sp x b _ hx hv =>
    obtain ⟨b', hb', htwins⟩ := henv.at? hx
    have hlookup : Variable.lookup env' x = some b' := hb'
    simp only [evalApart, Machine.evalWith, Eval.stepWith, Eval.stepBy, hlookup]
    exact force ih hv htwins hs _
  | @unary k _ _ sp op e v z hk he hop =>
    simp only [Expr.isPure, Bool.and_eq_true] at hpure
    refine (ih.run hσ hk he hpure.2 henv hs).bind (fun C1 t1 v' _ _ hv' => ?_)
    exact of_eq z.value (fun n => Eval.unary_of_onPlain? ((hv'.unaryOnPlain?_eq op).trans hop) n)
  | @binary k _ _ sp op l r v w z hk hl hr hop =>
    simp only [Expr.isPure, Bool.and_eq_true, bne_iff_ne] at hpure
    obtain ⟨⟨hassign, hlp⟩, hrp⟩ := hpure
    have hdecisive : op.decisive? = none := Option.eq_none_iff_forall_ne_some.mpr (fun d hd => by
      rw [BinaryOp.onPlain?_of_decisive? hd] at hop
      cases hop)
    have hcomparison : op.comparison? = none :=
      Option.eq_none_iff_forall_ne_some.mpr (fun f hf => by
        rw [BinaryOp.onPlain?_of_comparison? hf] at hop
        cases hop)
    simp only [evalApart, Machine.evalWith, Eval.stepWith_binary hdecisive hassign, Eval.operate,
      hcomparison]
    refine (ih.run hσ hk hl hlp henv hs).bind (fun C1 t1 v' hs1 hC1 hv' => ?_)
    refine (ih.run hσ hk hr hrp (henv.mono hC1) hs1).bind (fun C2 t2 w' _ hC2 hw' => ?_)
    exact of_eq z.value
      (fun n => Eval.arithmetic_of_onPlain? (((hv'.mono hC2).onPlain?_eq hw' op).trans hop) n)
  | @compare k _ _ sp op l r v w f b hk hop hl hr hc =>
    simp only [Expr.isPure, Bool.and_eq_true, bne_iff_ne] at hpure
    obtain ⟨⟨hassign, hlp⟩, hrp⟩ := hpure
    have hdecisive : op.decisive? = none := Option.eq_none_iff_forall_ne_some.mpr (fun d hd => by
      cases hop.symm.trans (BinaryOp.comparison?_of_decisive? hd))
    simp only [evalApart, Machine.evalWith, Eval.stepWith_binary hdecisive hassign, Eval.operate,
      hop]
    refine (ih.run hσ hk hl hlp henv hs).bind (fun C1 t1 v' hs1 hC1 hv' => ?_)
    refine (ih.run hσ hk hr hrp (henv.mono hC1) hs1).bind (fun C2 t2 w' hs2 hC2 hw' => ?_)
    exact Yields.bind
      (compare ih hσ hsharing hc hk.le (hv'.mono hC2) hw' hs2 (fun n => Nat.le_refl n))
      (fun b' t' _ => of_eq (.bool (f b')) (fun _ => rfl))
  | @logical k _ _ sp op l r d b c hk hop hl hr =>
    simp only [Expr.isPure, Bool.and_eq_true] at hpure
    have hlogical : Completes (fun n => Eval.logical n (evalApart n) m env' op d l r) t :=
      logical ih hσ hk hl hr hpure.1.2 hpure.2 henv hs
    cases op <;> cases hop <;> exact hlogical
  | @call k _ _ sp f args id c frame _ hk hf hlen hframe w hargs hbody =>
    rw [Expr.isPure, Bool.and_eq_true] at hpure
    have hbodyPure : c.body.isPure = true := hf.isPure hB hpure.1
    refine (ih.run hσ hk hf hpure.1 henv hs).bind (fun C1 t1 f' hs1 hC1 hf' => ?_)
    cases hf' with
    | closure houter =>
      exact call ih hσ hk hlen hframe (fun heager e he => ⟨w e, hargs heager e he⟩) hbody
        hpure.2 hbodyPure houter (henv.mono hC1) hs1
  | @cons k _ _ sp f e1 e2 i j v w hk hf hi hj h1 h2 hlist =>
    simp only [Expr.isPure, Expr.allPure, Bool.and_eq_true] at hpure
    refine (ih.run hσ hk hf hpure.1 henv hs).bind (fun C1 t1 f' hs1 hC1 hf' => ?_)
    cases hf'
    exact cons ih hσ hk h1 h2 hlist hpure.2.1 hpure.2.2.1 (henv.mono hC1) hs1
  | @inspect k _ _ sp f e p v z hk hf he hp =>
    simp only [Expr.isPure, Expr.allPure, Bool.and_eq_true] at hpure
    refine (ih.run hσ hk hf hpure.1 henv hs).bind (fun C1 t1 f' hs1 hC1 hf' => ?_)
    cases hf'
    have hne : p ≠ .cons := by
      rintro rfl
      cases v <;> cases hp
    refine applyPrim ih hσ hk hne he hpure.2.1 (henv.mono hC1) hs1 (fun C' t' v' hs' hv' => ?_)
    exact of_eq z.value (fun n => Eval.primitive_of_inspect? ((hv'.inspect?_eq p).trans hp))
  | @first k _ _ sp f e i j _ hk hf he hv =>
    simp only [Expr.isPure, Expr.allPure, Bool.and_eq_true] at hpure
    refine (ih.run hσ hk hf hpure.1 henv hs).bind (fun C1 t1 f' hs1 hC1 hf' => ?_)
    cases hf'
    refine applyPrim (p := .first) ih hσ hk (by decide) he hpure.2.1 (henv.mono hC1) hs1
      (fun C' t' v' hs' hv' => ?_)
    cases hv' with
    | pair hi hj => exact force ih (hv.mono (List.prefix_refl B) (Nat.le_of_lt hk)) hi hs' _
  | @rest k _ _ sp f e i j _ hk hf he hv hlist =>
    simp only [Expr.isPure, Expr.allPure, Bool.and_eq_true] at hpure
    refine (ih.run hσ hk hf hpure.1 henv hs).bind (fun C1 t1 f' hs1 hC1 hf' => ?_)
    cases hf'
    refine applyPrim (p := .rest) ih hσ hk (by decide) he hpure.2.1 (henv.mono hC1) hs1
      (fun C' t' v' hs' hv' => ?_)
    cases hv' with
    | pair hi hj =>
      exact (readTail ih hσ (hv.mono (List.prefix_refl B) (Nat.le_of_lt hk)) hlist hj hs'
        (fun n => Nat.le_refl n)).mono (fun _ _ _ => trivial)
  | @cond k _ _ sp c a b test _ hk hc he =>
    simp only [Expr.isPure, Bool.and_eq_true] at hpure
    refine (ih.run hσ hk hc hpure.1.1 henv hs).bind (fun C1 t1 c' hs1 hC1 hc' => ?_)
    cases hc'
    have hs1 := hs1.lower (Nat.le_of_lt hk)
    cases test with
    | true => exact ih k hk C1 t1 env env' a v he hpure.1.2 (henv.mono hC1) hs1
    | false => exact ih k hk C1 t1 env env' b v he hpure.2 (henv.mono hC1) hs1
  | @letIn k _ _ sp kind defs layout body frame _ hk hframe w hdefs hbody =>
    rw [Expr.isPure, Bool.and_eq_true, ← Expr.allPure_defValues] at hpure
    have hlen : (Expr.defNames defs).length = (Expr.defValues defs).length := by
      rw [Expr.defNames, Expr.defValues, List.length_map, List.length_map]
    have hlet := bindFrame (f := fun n frame' => evalApart n m (frame' :: env') body) ih hσ hk
      kind hpure.1 hlen hframe (fun heager e he => ⟨w e, hdefs heager e he⟩) henv hs
      (fun C1 t1 frame' hs1 hC1 hframe' => ih k hk C1 t1 _ _ body v hbody hpure.2
        (.cons hframe' (henv.mono hC1)) (hs1.lower (Nat.le_of_lt hk)))
    cases kind <;> exact hlet
  | blockNil => exact of_eq .unit (fun _ => rfl)
  | @blockLast k _ _ sp e _ hk he =>
    simp only [Expr.isPure, Expr.allPure, Bool.and_eq_true] at hpure
    refine (ih.run hσ hk he hpure.1 henv hs).bind (fun C1 t1 v' _ _ _ => ?_)
    exact of_eq v' (fun _ => rfl)
  | @blockCons k _ _ sp e e' es v w hk he hes =>
    rw [Expr.isPure, Expr.allPure, Bool.and_eq_true] at hpure
    refine (ih.run hσ hk he hpure.1 henv hs).bind (fun C1 t1 v' hs1 hC1 _ => ?_)
    have hpure' : (Expr.block sp (e' :: es) : AddressedExpr).isPure = true := by
      rw [Expr.isPure]
      exact hpure.2
    obtain ⟨u, t2, hends, -⟩ := ih k hk C1 t1 env env' (.block sp (e' :: es)) _ hes hpure'
      (henv.mono hC1) (hs1.lower (Nat.le_of_lt hk))
    exact ⟨u, t2, hends.shift, trivial⟩

end

/-- Whatever means something can be evaluated. -/
theorem followsBelow (hσ : σ.Fits m.config) (hsharing : σ.sharing = false)
    (hB : ∀ (i : Nat) (y : Bound Address Layout), B[i]? = some y → y.expr.isPure = true) (h : Nat) :
    FollowsBelow σ B m h := by
  induction h with
  | zero => exact fun k hk => nomatch hk
  | succ h ih =>
    intro k hk C t env env' e v hm hpure henv hs
    rcases Nat.lt_succ_iff_lt_or_eq.mp hk with hlt | rfl
    · exact ih k hlt C t env env' e v hm hpure henv hs
    · exact Yields.succ (step ih hσ hsharing hB hm hpure henv hs)

end Completes

end Mapling
