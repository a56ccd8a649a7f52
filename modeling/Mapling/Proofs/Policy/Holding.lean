import Mapling.Proofs.Eval.Comparing
import Mapling.Proofs.Eval.Eager
import Mapling.Proofs.Policy.Meaning

/-! # What slots may hold

While a pure program runs, the bindings are those of the slots that have been made so far, and
every slot holds what it was bound to or a value that this means (`Traces`). Comparisons must not
come to closures here (`Eval.equalsApart`), for how often a closure is made depends on the
policies. Of all other values the operators make the same again, whenever they are applied. -/

namespace Mapling

variable {V L : Type} {ev  : Evaluator V L} {v w : Value V L} {es : List (Expr V L)}
  {n i h : Nat} {op : BinaryOp} {y : Bound V L} {m : Machine} {env : Env} {z : Scalar}
  {x : Slot V L} {e : Expr V L}

/-! ## What succeeds -/

section

variable {α : Type} {s s' : Store V L}

theorem Eval.not_ok_throw {β : Type} {x : Eval V L β} {f : β → EvalError} {a : α} :
    outcome (do throw (f (← x)) : Eval V L α) s ≠ some (.ok a, s') := by
  intro h
  obtain ⟨b, s1, -, h⟩ := outcome_bind_ok.mp h
  cases h

theorem Eval.ofExcept_ok {r : Except EvalError α} {a : α}
    (h : outcome (Eval.ofExcept r : Eval V L α) s = some (.ok a, s')) : r = .ok a ∧ s' = s := by
  cases r with
  | ok b =>
    cases h
    exact ⟨rfl, rfl⟩
  | error e => cases h

theorem Eval.neg_ok (h : outcome (Eval.unary n .neg v) s = some (.ok w, s')) :
    ∃ a b, v = .int a ∧ w = .int b ∧ negate a = .ok b ∧ s' = s := by
  cases v with
  | int a =>
    obtain ⟨b, s1, h1, h2⟩ := outcome_bind_ok.mp h
    obtain ⟨hb, rfl⟩ := Eval.ofExcept_ok h1
    cases h2
    exact ⟨a, b, rfl, rfl, hb, rfl⟩
  | _ => exact absurd h Eval.not_ok_throw

theorem Eval.not_ok (h : outcome (Eval.unary n .not v) s = some (.ok w, s')) :
    ∃ b, v = .bool b ∧ w = .bool (!b) ∧ s' = s := by
  cases v with
  | bool b =>
    cases h
    exact ⟨b, rfl, rfl, rfl⟩
  | _ => exact absurd h Eval.not_ok_throw

theorem Eval.arithmetic_ok {op : BinaryOp} {x : Value V L}
    (h : outcome (Eval.arithmetic n op v w) s = some (.ok x, s')) :
    ∃ a b z, v = .int a ∧ w = .int b ∧ op.onInts a b = .ok z ∧ x = z.value ∧ s' = s := by
  cases v with
  | int a =>
    cases w with
    | int b =>
      obtain ⟨z, s1, h1, h⟩ := outcome_bind_ok.mp h
      obtain ⟨hz, rfl⟩ := Eval.ofExcept_ok h1
      refine ⟨a, b, z, rfl, rfl, hz, ?_⟩
      cases z with
      | _ =>
        cases h
        exact ⟨rfl, rfl⟩
    | _ => exact absurd h Eval.not_ok_throw
  | _ => exact absurd h Eval.not_ok_throw

/-- A primitive of one argument looks at the value or at one of its parts. -/
theorem Eval.primitive_ok {p : Prim} (h : outcome (Eval.primitive n ev p v) s = some (.ok w, s')) :
    (∃ z, p.inspect? v = some z ∧ w = z.value ∧ s' = s) ∨
    (∃ i j, p = .first ∧ v = .pair i j ∧ outcome (Eval.forceHead ev i) s = some (.ok w, s')) ∨
    ∃ i j, p = .rest ∧ v = .pair i j ∧ outcome (Eval.forceTail n ev j) s = some (.ok w, s') := by
  cases p with
  | first =>
    cases v with
    | pair i j => exact .inr (.inl ⟨i, j, rfl, rfl, h⟩)
    | null => cases h
    | _ => exact absurd h Eval.not_ok_throw
  | rest =>
    cases v with
    | pair i j => exact .inr (.inr ⟨i, j, rfl, rfl, h⟩)
    | null => cases h
    | _ => exact absurd h Eval.not_ok_throw
  | cons => exact absurd h Eval.not_ok_throw
  | arity =>
    cases v with
    | closure | prim =>
      cases h
      exact .inl ⟨_, rfl, rfl, rfl⟩
    | _ => exact absurd h Eval.not_ok_throw
  | _ =>
    cases h
    exact .inl ⟨_, rfl, rfl, rfl⟩

/-- Values that are not both pairs are compared at once. -/
theorem Eval.equalsBy_atoms (atoms : Value V L → Value V L → Eval V L Bool)
    (hpairs : ¬∃ i j i' j', v = .pair i j ∧ w = .pair i' j') :
    Eval.equalsBy atoms ev (n + 1) v w = atoms v w := by
  rw [Eval.equalsBy]
  rintro i j i' j' rfl rfl
  exact hpairs ⟨i, j, i', j', rfl, rfl⟩

end

/-! ## Comparing -/

/-- Equality, without an outcome for values that are not plain. -/
def Eval.equalsPlain {V L : Type} : Comparison V L := fun n ev v w =>
  if v.isPlain && w.isPlain then equals ev n v w else EvalOps.exhausted

/-- Equality, without an outcome as soon as something is compared to a closure. -/
def Eval.equalsApart {V L : Type} : Comparison V L := fun n ev => equalsBy (fun v w =>
  if v.isClosure || w.isClosure then EvalOps.exhausted else return sameAtom v w) ev n

theorem Below.equalsPlain (n n' : Nat) (ev ev' : Evaluator V L) (v w : Value V L) (hn : n ≤ n')
    (hev : EvaluatorsBelow ev ev') :
    Below (Eval.equalsPlain n ev v w) (Eval.equals ev' n' v w) := by
  unfold Eval.equalsPlain
  split
  · exact equals hev hn v w
  · exact exhausted _

theorem Below.equalsApart (n n' : Nat) (ev ev' : Evaluator V L) (v w : Value V L) (hn : n ≤ n')
    (hev : EvaluatorsBelow ev ev') :
    Below (Eval.equalsApart n ev v w) (Eval.equals ev' n' v w) := by
  refine Congruence.equalsBy (c := congruence V L) (fun v w => ?_) hn (force hev) v w
  split
  · exact exhausted _
  · exact refl _

/-- Plain values that are compared are compared at once. -/
theorem Eval.equalsPlain_ok {s s' : Store V L} {b : Bool}
    (h : outcome (Eval.equalsPlain n ev v w) s = some (.ok b, s')) :
    (v.isPlain && w.isPlain) = true ∧ b = Eval.sameAtom v w ∧ s' = s := by
  unfold Eval.equalsPlain at h
  split at h
  · rename_i hplain
    rw [Bool.and_eq_true] at hplain
    cases n with
    | zero => cases h
    | succ n =>
      rw [Eval.equals, Eval.equalsBy_atoms] at h
      · cases h
        exact ⟨by simp [hplain], rfl, rfl⟩
      · rintro ⟨i, j, i', j', rfl, rfl⟩
        cases hplain.1
  · cases h

/-! ## Operators -/

/-- What a binary operator does with the values of its operands. -/
def Eval.operate {V L : Type} (cmp : Comparison V L) (n : Nat) (ev : Evaluator V L)
    (op : BinaryOp) (v w : Value V L) : Eval V L (Value V L) :=
  match op.comparison? with
  | some f => do return .bool (f (← cmp n ev v w))
  | none => arithmetic n op v w

theorem Eval.stepWith_binary [Variable V] {cmp : Comparison V L} {sp : Span} {l r : Expr V L}
    (hop : op.decisive? = none) (hassign : op ≠ .assign) :
    Eval.stepWith cmp n ev m env (.binary sp op l r) = (do
      let v ← ev m env l
      let w ← ev m env r
      operate cmp n ev op v w) := by
  cases op with
  | and | or => cases hop
  | assign => exact absurd rfl hassign
  | _ => rfl

/-- On plain values an operator gives what it is known to give. -/
theorem Eval.arithmetic_of_onPlain? (hz : op.onPlain? v w = some z) (n : Nat) :
    Eval.arithmetic n op v w = pure z.value := by
  cases v with
  | int a =>
    cases w with
    | int b =>
      rw [BinaryOp.onPlain?] at hz
      simp only [Eval.arithmetic]
      cases hr : op.onInts a b with
      | error e =>
        rw [hr] at hz
        cases hz
      | ok z' =>
        rw [hr] at hz
        cases hz
        cases z <;> rfl
    | _ => cases hz
  | _ => cases hz

theorem Eval.unary_ok {op : UnaryOp} {s s' : Store V L} (hderef : op ≠ .deref) (href : op ≠ .ref)
    (ho : outcome (Eval.unary n op v) s = some (.ok w, s')) :
    ∃ z, op.onPlain? v = some z ∧ w = z.value ∧ s' = s := by
  cases op with
  | neg =>
    obtain ⟨a, b, rfl, rfl, hab, rfl⟩ := Eval.neg_ok ho
    exact ⟨.int b, by rw [UnaryOp.onPlain?, hab]; rfl, rfl, rfl⟩
  | not =>
    obtain ⟨b, rfl, rfl, rfl⟩ := Eval.not_ok ho
    exact ⟨.bool (!b), rfl, rfl, rfl⟩
  | deref => exact absurd rfl hderef
  | ref => exact absurd rfl href

/-- On a plain value a unary operator gives what it is known to give. -/
theorem Eval.unary_of_onPlain? {op : UnaryOp} (hz : op.onPlain? v = some z) (n : Nat) :
    Eval.unary n op v = pure z.value := by
  cases op with
  | neg =>
    cases v with
    | int a =>
      rw [UnaryOp.onPlain?] at hz
      simp only [Eval.unary]
      cases hr : negate a with
      | error e =>
        rw [hr] at hz
        cases hz
      | ok b =>
        rw [hr] at hz
        cases hz
        rfl
    | _ => cases hz
  | not =>
    cases v with
    | bool b =>
      cases hz
      rfl
    | _ => cases hz
  | _ => cases v <;> cases hz

/-- A pair that is made holds what its parts were turned into. Under the eager policy the second
part is a list. -/
theorem Eval.cons_ok {e1 e2 : Expr V L} {s s' : Store V L}
    (ho : outcome (Eval.cons n ev m env e1 e2) s = some (.ok v, s')) :
    ∃ head s1 tail s2, outcome (Eval.defer ev m env m.config.cons e1) s = some (.ok head, s1) ∧
      outcome (Eval.defer ev m env m.config.cons e2) s1 = some (.ok tail, s2) ∧
      v = (s2.newPair head tail).1 ∧ s' = (s2.newPair head tail).2 ∧
      (m.config.cons.isLazy = false → ∀ w, tail = .ready w → w.isList = true) := by
  obtain ⟨head, s1, ho1, ho⟩ := outcome_bind_ok.mp ho
  obtain ⟨tail, s2, ho2, ho⟩ := outcome_bind_ok.mp ho
  refine ⟨head, s1, tail, s2, ho1, ho2, ?_⟩
  split at ho
  · rename_i w hpolicy
    split at ho
    · rename_i hlist
      obtain ⟨rfl, rfl⟩ := outcome_modifyGet_ok ho
      refine ⟨rfl, rfl, fun _ w' hw' => ?_⟩
      cases hw'
      exact hlist
    · exact absurd ho Eval.not_ok_throw
  · rename_i hne
    obtain ⟨rfl, rfl⟩ := outcome_modifyGet_ok ho
    refine ⟨rfl, rfl, fun hstrict w hw => ?_⟩
    cases hpolicy : m.config.cons with
    | value => exact absurd hw (hne w hpolicy)
    | _ =>
      rw [hpolicy] at hstrict
      cases hstrict

/-! ## Stores and bindings -/

def Slot.isOpen : Slot V L → Bool
  | .uninit | .forcing => true
  | _ => false

def Value.PartsBelow (i : Nat) : Value V L → Prop
  | .pair j k => j < i ∧ k < i
  | _ => True

theorem Value.PartsBelow.mono {j : Nat} {v : Value V L} (hij : i ≤ j) (hv : v.PartsBelow i) :
    v.PartsBelow j := by
  cases v with
  | pair => exact ⟨hv.1.trans_le hij, hv.2.trans_le hij⟩
  | _ => trivial

/-- What the slot `i` may be made for to hold the value. The parts of a pair are older than the
pair, and its second part is a list. -/
def Purpose.Admits (i : Nat) : Purpose → Value V L → Prop
  | .variable, _ => True
  | .head, v => v.PartsBelow i
  | .tail, v => v.PartsBelow i ∧ v.isList = true

/-- What was bound is put off. If pairs are eager it is no part of a pair. -/
structure Bound.PutsOff (σ : Eagerness) (m : Machine) (y : Bound V L)
    (z : Suspension V L) : Prop where
  lazy : σ.isTotal = false
  eq : z = ⟨y.expr, y.env, m⟩
  before : y.before = []
  purpose : σ.cons = true → y.purpose = .variable

/-- From `s` to `s'` no slot has been opened, and the depth is the same again. -/
structure Settles (m : Machine) (s s' : Store V L) : Prop where
  closed : ∀ j < s'.slots.size, (s'.slot j).isOpen = true →
    j < s.slots.size ∧ (s.slot j).isOpen = true
  depth : s'.depth m = s.depth m

variable {σ : Eagerness} {m : Machine} {B B' : Bindings V L} {s s' s'' : Store V L}
  {env : Env}

theorem Settles.refl (m : Machine) (s : Store V L) : Settles m s s :=
  ⟨fun _ hj ho => ⟨hj, ho⟩, rfl⟩

theorem Settles.trans (h : Settles m s s') (h' : Settles m s' s'') : Settles m s s'' := by
  refine ⟨fun j hj ho => ?_, h'.depth.trans h.depth⟩
  obtain ⟨hj', ho'⟩ := h'.closed j hj ho
  exact h.closed j hj' ho'

/-- The bindings of the expressions of a frame, behind those in `seen`. -/
def bound (eager : Bool) (env : Env) : List (Expr V L) → List (Expr V L) → Bindings V L
  | _, [] => []
  | seen, e :: es =>
    ⟨e, env, if eager then seen else [], .variable⟩ :: bound eager env (seen ++ [e]) es

theorem length_bound (eager : Bool) (env : Env) (seen es : List (Expr V L)) :
    (bound eager env seen es).length = es.length := by
  induction es generalizing seen with
  | nil => rfl
  | cons e es ih => rw [bound, List.length_cons, List.length_cons, ih]

theorem mem_bound {eager : Bool} {seen : List (Expr V L)} (hy : y ∈ bound eager env seen es) :
    y.expr ∈ es ∧ y.purpose = .variable := by
  induction es generalizing seen with
  | nil => cases hy
  | cons e es ih =>
    rcases List.mem_cons.mp hy with rfl | hy
    · exact ⟨List.mem_cons_self, rfl⟩
    · exact ⟨List.mem_cons_of_mem e (ih hy).1, (ih hy).2⟩

/-- New slots that are bound in order. -/
theorem row_append (B : Bindings V L) (eager : Bool) (env : Env) (seen : List (Expr V L))
    {bs : List Binding} (hslots : bs.map Binding.slot = List.range' B.length es.length) :
    Bindings.Row (B ++ bound eager env seen es) eager env seen bs es := by
  induction es generalizing B seen bs with
  | nil =>
    obtain rfl : bs = [] := List.map_eq_nil_iff.mp hslots
    exact .nil
  | cons e es ih =>
    cases bs with
    | nil => simp at hslots
    | cons b bs =>
      rw [List.map_cons, List.length_cons, List.range'_succ] at hslots
      obtain ⟨hb, hbs⟩ := List.cons.inj hslots
      have hrest := ih (B ++ [⟨e, env, if eager then seen else [], .variable⟩]) (seen ++ [e])
        (by rw [hbs, List.length_append, List.length_singleton])
      rw [List.append_assoc, List.singleton_append] at hrest
      refine .cons ?_ hrest
      rw [hb, bound, List.getElem?_append_right le_rfl, Nat.sub_self]
      rfl

theorem Scalar.isPure_value (z : Scalar) : (z.value : Value V L).IsPure := by
  cases z <;> trivial

theorem Store.depth_setDepth (hlt : m.counter < s.depths.size) (d : Nat) :
    (s.setDepth m d).depth m = d := by
  simp [Store.setDepth, Store.depth, hlt]

variable [Variable V]

/-- What the slot `i` may hold that was bound to `y`. A part of a pair is evaluated by name only if
pairs are. -/
def Holds (σ : Eagerness) (B : Bindings V L) (m : Machine) (i : Nat) (y : Bound V L) :
    Slot V L → Prop
  | .uninit | .forcing => σ.cons = true → y.purpose = .variable
  | .ready v => (∃ h, Reads σ B h i v) ∧ (σ.cons = true → y.purpose.Admits i v)
  | .byName z => y.PutsOff σ m z ∧ (y.purpose = .variable ∨ m.config.cons = .name)
  | .byNeed z => y.PutsOff σ m z

/-- The slots of the store hold what they were bound to, or what this means. -/
structure Traces (σ : Eagerness) (B : Bindings V L) (m : Machine) (s : Store V L) :
    Prop where
  size : B.length = s.slots.size
  slot : ∀ (i : Nat) (y : Bound V L), B[i]? = some y → Holds σ B m i y (s.slot i)
  pure : ∀ (i : Nat) (y : Bound V L), B[i]? = some y → y.expr.isPure = true
  counter : m.counter < s.depths.size

theorem Holds.mono (hB : B <+: B') (hx : Holds σ B m i y x) : Holds σ B' m i y x := by
  cases x with
  | ready v =>
    obtain ⟨⟨h, hv⟩, hparts⟩ := hx
    exact ⟨⟨h, hv.mono hB le_rfl⟩, hparts⟩
  | _ => exact hx

theorem Traces.start (σ : Eagerness) (config : Config) :
    Traces σ [] ⟨config, 0⟩ ((Store.empty : Store V L).newMachine config).2 :=
  ⟨rfl, nofun, nofun, Nat.zero_lt_one⟩

theorem Traces.setDepth (hs : Traces σ B m s) (d : Nat) : Traces σ B m (s.setDepth m d) :=
  ⟨hs.size, hs.slot, hs.pure, by simpa [Store.setDepth] using hs.counter⟩

/-- A slot gets what it may hold. -/
theorem Traces.setSlot (hs : Traces σ B m s) (hy : B[i]? = some y) (hx : Holds σ B m i y x) :
    Traces σ B m (s.setSlot i x) := by
  refine ⟨hs.size.trans (Store.size_setSlot s i x).symm, fun j z hz => ?_, hs.pure, hs.counter⟩
  rw [Store.slot_setSlot]
  split
  · rename_i heq
    cases heq.1
    cases hy.symm.trans hz
    exact hx
  · exact hs.slot j z hz

/-- New slots with new bindings. -/
theorem Traces.append (hs : Traces σ B m s) (more : Bindings V L)
    (hsize : s'.slots.size = s.slots.size + more.length)
    (hold : ∀ i < s.slots.size, s'.slot i = s.slot i)
    (hnew : ∀ i y, more[i]? = some y →
      Holds σ (B ++ more) m (s.slots.size + i) y (s'.slot (s.slots.size + i)))
    (hpure : ∀ y ∈ more, y.expr.isPure = true) (hdepths : s'.depths = s.depths) :
    Traces σ (B ++ more) m s' := by
  have hlength := hs.size
  refine ⟨by rw [List.length_append, hlength, hsize], fun i y hy => ?_, fun i y hy => ?_,
    by rw [hdepths]; exact hs.counter⟩
  · by_cases hlt : i < B.length
    · rw [List.getElem?_append_left hlt] at hy
      rw [hold i (by omega)]
      exact (hs.slot i y hy).mono (List.prefix_append B more)
    · rw [List.getElem?_append_right (by omega)] at hy
      have hholds := hnew _ y hy
      rwa [← hlength, Nat.add_sub_cancel' (by omega)] at hholds
  · by_cases hlt : i < B.length
    · rw [List.getElem?_append_left hlt] at hy
      exact hs.pure i y hy
    · rw [List.getElem?_append_right (by omega)] at hy
      exact hpure y (List.mem_of_getElem? hy)

theorem Means.partsBelow {v : Value V L} (hm : Means σ B h env e v) :
    v.PartsBelow B.length := by
  cases v with
  | pair i j =>
    obtain ⟨⟨y, hy, -⟩, z, hz, -⟩ := hm.parts
    exact ⟨(List.getElem?_eq_some_iff.mp hy).1, (List.getElem?_eq_some_iff.mp hz).1⟩
  | _ => trivial

/-- What the expression was turned into when it was bound: its value, or a suspension if the policy
allows that. -/
def Deferred (σ : Eagerness) (B : Bindings V L) (m : Machine) (env : Env) (policy : Policy)
    (e : Expr V L) (x : Slot V L) : Prop :=
  (∃ v h, x = .ready v ∧ Means σ B h env e v) ∨
    policy.isLazy = true ∧
      (x = .byName ⟨e, env, m⟩ ∧ policy = .name ∨ x = .byNeed ⟨e, env, m⟩)

namespace Deferred

variable {policy : Policy} {e : Expr V L} {x : Slot V L}

theorem mono (hB : B <+: B') (hx : Deferred σ B m env policy e x) :
    Deferred σ B' m env policy e x := by
  rcases hx with ⟨v, h, rfl, hv⟩ | hx
  · exact .inl ⟨v, h, rfl, hv.mono hB le_rfl⟩
  · exact .inr hx

theorem isOpen_eq (hx : Deferred σ B m env policy e x) : x.isOpen = false := by
  rcases hx with ⟨v, h, rfl, hv⟩ | ⟨-, ⟨rfl, -⟩ | rfl⟩ <;> rfl

theorem means (hx : Deferred σ B m env policy e x) (hpolicy : policy.isLazy = false) :
    ∃ v h, x = .ready v ∧ Means σ B h env e v := by
  rcases hx with hv | ⟨hlazy, -⟩
  · exact hv
  · rw [hpolicy] at hlazy
    cases hlazy

/-- A new part of a pair may hold what its expression was turned into. -/
theorem holds (hσ : σ.Fits m.config) (hx : Deferred σ B m env m.config.cons e x) (hB : B <+: B')
    {r : Purpose} (hi : B'[i]? = some ⟨e, env, [], r⟩)
    (hr : ∀ v, x = .ready v → v.PartsBelow B.length → σ.cons = true → r.Admits i v) :
    Holds σ B' m i ⟨e, env, [], r⟩ x := by
  rcases hx with ⟨v, h, rfl, hv⟩ | ⟨hlazy, hx⟩
  · refine ⟨⟨h + 1, .intro (Nat.lt_succ_self h) hi (fun _ => .null) nofun
      (hv.mono hB le_rfl)⟩, hr v rfl hv.partsBelow⟩
  · have hcons : σ.cons = false := by simp [hσ.cons, hlazy]
    have hputsOff : Bound.PutsOff σ m ⟨e, env, [], r⟩ ⟨e, env, m⟩ :=
      ⟨by simp [Eagerness.isTotal, hcons], rfl, rfl, by simp [hcons]⟩
    rcases hx with ⟨rfl, hname⟩ | rfl
    · exact ⟨hputsOff, .inr hname⟩
    · exact hputsOff

end Deferred

/-- Declaring a frame binds its slots. -/
theorem Traces.newFrame (hs : Traces σ B m s) (hes : Expr.allPure es = true) {names : List String}
    (hlen : names.length = es.length) (eager : Bool) (env : Env) :
    Traces σ (B ++ bound eager env [] es) m (s.newFrame names).2 ∧
      Bindings.Row (B ++ bound eager env [] es) eager env [] (s.newFrame names).1 es := by
  refine ⟨hs.append _ ?_ (fun i _ => Store.slot_newFrame s names i) (fun i y hy => ?_)
    (fun y hy => Expr.isPure_of_mem hes (mem_bound hy).1) rfl, row_append B eager env [] ?_⟩
  · rw [Store.size_newFrame, length_bound, hlen]
  · rw [Store.slot_newFrame, Store.slot_eq_uninit (Nat.le_add_right _ _)]
    exact fun _ => (mem_bound (List.mem_of_getElem? hy)).2
  · rw [Store.map_slot_newFrame, hs.size, hlen]

/-! ## Values of pure expressions -/

/-- Functions that pure expressions evaluate to have pure bodies. -/
theorem Means.isPure (hB : ∀ (i : Nat) (y : Bound V L), B[i]? = some y → y.expr.isPure = true)
    {v : Value V L} (hpure : e.isPure = true) (hv : Means σ B h env e v) : v.IsPure := by
  induction h using Nat.strong_induction_on generalizing env e v with
  | _ h ih =>
    have hreads : ∀ {k i : Nat} {v : Value V L}, k ≤ h → Reads σ B k i v → v.IsPure := by
      rintro k i v hk ⟨hk', hy, w, hbefore, hv⟩
      exact ih _ (by omega) (hB _ _ hy) hv
    cases hv with
    | int | bool | null | prim => trivial
    | map id => exact hpure
    | var hx hv => exact hreads le_rfl hv
    | unary | binary => exact Scalar.isPure_value _
    | compare | logical => trivial
    | call hk hf hlen hframe w hargs hbody =>
      rw [Expr.isPure, Bool.and_eq_true] at hpure
      exact ih _ hk (ih _ hk hpure.1 hf) hbody
    | cons hk hf hi hj h1 h2 hlist => trivial
    | inspect hk hf he hp => exact Scalar.isPure_value _
    | first hk hf he hv => exact hreads (by omega) hv
    | rest hk hf he hv hlist => exact hreads (by omega) hv
    | @cond k h env sp t a b test v hk ht he =>
      simp only [Expr.isPure, Bool.and_eq_true] at hpure
      refine ih _ hk ?_ he
      cases test
      · exact hpure.2
      · exact hpure.1.2
    | letIn hk hframe w hdefs hbody =>
      rw [Expr.isPure, Bool.and_eq_true] at hpure
      exact ih _ hk hpure.2 hbody
    | blockNil => trivial
    | blockLast hk he =>
      simp only [Expr.isPure, Expr.allPure, Bool.and_eq_true] at hpure
      exact ih _ hk hpure.1 he
    | blockCons hk he hes =>
      rw [Expr.isPure, Expr.allPure, Bool.and_eq_true] at hpure
      refine ih _ hk ?_ hes
      rw [Expr.isPure]
      exact hpure.2

theorem Reads.isPure (hB : ∀ (i : Nat) (y : Bound V L), B[i]? = some y → y.expr.isPure = true)
    {v : Value V L} (hr : Reads σ B h i v) : v.IsPure := by
  obtain ⟨-, hy, w, -, hv⟩ := hr
  exact hv.isPure hB (hB _ _ hy)

end Mapling
