import Mapling.Proofs.Outcome

/-! # Values that look alike

Two values in two stores look alike when they are of the same kind and so are their parts, all
the way down. Identities do not matter: which slots a pair has, which cell a reference has and
which number a closure has cannot be seen in a text. The relation is given by what one step of it
demands (`Alike`), so that references which lead back to themselves are covered as well. -/

namespace Mapling

variable {V L V' L' : Type}

/-- One step of likeness: two values have the same shape, and `R` holds between their parts. -/
inductive Alike (R : Value V L → Value V' L' → Prop) (s : Store V L) (t : Store V' L') :
    Value V L → Value V' L' → Prop
  | int (n : Int) : Alike R s t (.int n) (.int n)
  | bool (b : Bool) : Alike R s t (.bool b) (.bool b)
  | null : Alike R s t .null .null
  | unit : Alike R s t .unit .unit
  | prim (p : Prim) : Alike R s t (.prim p) (.prim p)
  | closure {i j : Nat} {c : Closure V L} {d : Closure V' L'} (h : c.arity = d.arity) :
      Alike R s t (.closure i c) (.closure j d)
  | ref {i j : Nat} (h : R (s.cell i) (t.cell j)) : Alike R s t (.ref i) (.ref j)
  | pair {h k h' k' : Nat} (head : Option.Rel R (s.slot h).value? (t.slot h').value?)
      (tail : Option.Rel R (s.slot k).value? (t.slot k').value?) :
      Alike R s t (.pair h k) (.pair h' k')

variable {R : Value V L → Value V' L' → Prop} {s : Store V L} {t : Store V' L'}
variable {v : Value V L} {w : Value V' L'}

theorem Alike.kind_eq (h : Alike R s t v w) : v.kind = w.kind := by
  cases h <;> rfl

theorem Alike.isList_eq (h : Alike R s t v w) : v.isList = w.isList := by
  cases h <;> rfl

theorem Alike.symm (h : Alike R s t v w) : Alike (fun w v => R v w) t s w v := by
  have hpart : ∀ {x y}, Option.Rel R x y → Option.Rel (fun w v => R v w) y x := by
    rintro x y (h | _)
    · exact .some h
    · exact .none
  cases h with
  | int n => exact .int n
  | bool b => exact .bool b
  | null => exact .null
  | unit => exact .unit
  | prim p => exact .prim p
  | closure h => exact .closure h.symm
  | ref h => exact .ref h
  | pair head tail => exact .pair (hpart head) (hpart tail)

/-- A value is alike to itself in stores that hold the same. -/
theorem Alike.of_eq {t : Store V L} (hslot : ∀ i, s.slot i = t.slot i)
    (hcell : ∀ i, s.cell i = t.cell i) (v w : Value V L) (h : v = w) : Alike Eq s t v w := by
  subst h
  have hpart : ∀ i, Option.Rel Eq (s.slot i).value? (t.slot i).value? := by
    intro i
    rw [hslot i]
    cases (t.slot i).value? with
    | none => exact .none
    | some v => exact .some rfl
  cases v with
  | int n => exact .int n
  | bool b => exact .bool b
  | null => exact .null
  | unit => exact .unit
  | prim p => exact .prim p
  | closure i c => exact .closure rfl
  | ref i => exact .ref (hcell i)
  | pair h k => exact .pair (hpart h) (hpart k)

def Value.partText (s : Store V L) (n i : Nat) : Option String :=
  match (s.slot i).value? with
  | some v => v.text s n
  | none => some "..."

theorem Value.itemsText_succ (s : Store V L) (n h k : Nat) :
    itemsText s (n + 1) h k = (partText s n h).bind (fun head =>
      match (s.slot k).value? with
      | some (.pair h k) => (itemsText s n h k).map (fun rest => head ++ " " ++ rest)
      | some .null => some head
      | some v => (v.text s n).map (fun rest => head ++ " . " ++ rest)
      | none => some (head ++ " ...")) := by
  rw [itemsText, partText]
  have hbind : ∀ (o : Option String) (f : String → String),
      (do return f (← o)) = o.map f := by
    intro o f
    cases o <;> rfl
  cases (s.slot h).value? <;> simp only [hbind] <;> rfl

/-- Values that look alike have the same text. -/
theorem text_eq_of_alike (hR : ∀ v w, R v w → Alike R s t v w) (n : Nat) :
    (∀ v w, R v w → v.text s n = w.text t n) ∧
      ∀ h k h' k', Option.Rel R (s.slot h).value? (t.slot h').value? →
        Option.Rel R (s.slot k).value? (t.slot k').value? →
        Value.itemsText s n h k = Value.itemsText t n h' k' := by
  induction n with
  | zero =>
    refine ⟨fun v w _ => ?_, fun h k h' k' _ _ => ?_⟩
    · rw [Value.text, Value.text]
    · rw [Value.itemsText, Value.itemsText]
  | succ n ih =>
    obtain ⟨ihv, ihi⟩ := ih
    refine ⟨?_, ?_⟩
    · intro v w hvw
      cases hR v w hvw with
      | closure h => simp [Value.text, Value.plainText, h]
      | ref h => simp [Value.text, ihv _ _ h]
      | pair hh hk => simp [Value.text, ihi _ _ _ _ hh hk]
      | _ => simp [Value.text, Value.plainText]
    · intro h k h' k' hh hk
      have hpart : Value.partText s n h = Value.partText t n h' := by
        rw [Value.partText, Value.partText]
        generalize (s.slot h).value? = x, (t.slot h').value? = y at hh
        cases hh with
        | none => rfl
        | some hvw => exact ihv _ _ hvw
      rw [Value.itemsText_succ, Value.itemsText_succ, hpart]
      congr 1
      funext head
      generalize (s.slot k).value? = x, (t.slot k').value? = y at hk
      cases hk with
      | none => rfl
      | @some v w hvw =>
        have htext := ihv v w hvw
        cases hR v w hvw with
        | pair hh hk => simp only [ihi _ _ _ _ hh hk]
        | null => rfl
        | _ => simp only [htext]

/-! ## Values whose parts are all there -/

def Value.PartsReady (s : Store V L) : Value V L → Prop
  | .pair h k => (∃ v, s.slot h = .ready v) ∧ ∃ w, s.slot k = .ready w
  | _ => True

/-- The parts of pairs that look alike, when they have been computed on one side, have been
computed on the other. -/
theorem Alike.parts {h k h' k' : Nat} (hlike : Alike R s t (.pair h k) (.pair h' k'))
    (hready : (Value.pair h k).PartsReady s) :
    (∃ v w, s.slot h = .ready v ∧ t.slot h' = .ready w ∧ R v w) ∧
      ∃ v w, s.slot k = .ready v ∧ t.slot k' = .ready w ∧ R v w := by
  have hpart : ∀ {i j v}, s.slot i = .ready v → Option.Rel R (s.slot i).value? (t.slot j).value? →
      ∃ v w, s.slot i = .ready v ∧ t.slot j = .ready w ∧ R v w := by
    intro i j v hi hrel
    rw [hi] at hrel
    cases hj : t.slot j with
    | ready w =>
      rw [hj] at hrel
      cases hrel with
      | some hvw => exact ⟨v, w, hi, rfl, hvw⟩
    | _ =>
      rw [hj] at hrel
      cases hrel
  obtain ⟨⟨v, hv⟩, w, hw⟩ := hready
  cases hlike with
  | pair hhead htail => exact ⟨hpart hv hhead, hpart hw htail⟩

/-- Two values in their stores look the same all the way down, and nothing in them is put off. -/
def LooksLike (s : Store V L) (v : Value V L) (t : Store V' L') (w : Value V' L') : Prop :=
  ∃ R : Value V L → Value V' L' → Prop,
    R v w ∧ ∀ v w, R v w → Alike R s t v w ∧ v.PartsReady s

theorem LooksLike.kind_eq (h : LooksLike s v t w) : v.kind = w.kind := by
  obtain ⟨R, hvw, hR⟩ := h
  exact (hR v w hvw).1.kind_eq

theorem LooksLike.text_eq (h : LooksLike s v t w) (n : Nat) : v.text s n = w.text t n := by
  obtain ⟨R, hvw, hR⟩ := h
  exact (text_eq_of_alike (fun v w hvw => (hR v w hvw).1) n).1 v w hvw

/-- The two computations leave their stores alone and give the same. -/
def GiveSame {α : Type} (s : Store V L) (x : Eval V L α) (t : Store V' L') (y : Eval V' L' α) :
    Prop :=
  ∃ o : Option (Except EvalError α), outcome x s = o.map (fun r => (r, s)) ∧
    outcome y t = o.map (fun r => (r, t))

namespace GiveSame

variable {α β : Type} {x : Eval V L α} {y : Eval V' L' α}

theorem pure (a : α) : GiveSame s (pure a) t (pure a) := ⟨some (.ok a), rfl, rfl⟩

theorem bind {f : α → Eval V L β} {g : α → Eval V' L' β} (h : GiveSame s x t y)
    (hf : ∀ a, GiveSame s (f a) t (g a)) : GiveSame s (x >>= f) t (y >>= g) := by
  obtain ⟨o, hx, hy⟩ := h
  rcases o with _ | e | a
  · refine ⟨none, ?_, ?_⟩
    · rw [outcome_bind, hx]
      rfl
    · rw [outcome_bind, hy]
      rfl
  · exact ⟨some (.error e), outcome_bind_of_error _ hx, outcome_bind_of_error _ hy⟩
  · obtain ⟨o, hf, hg⟩ := hf a
    refine ⟨o, ?_, ?_⟩
    · rw [outcome_bind_of_ok _ hx, hf]
    · rw [outcome_bind_of_ok _ hy, hg]

/-- After steps that succeed on both sides. -/
theorem step {γ : Type} {x : Eval V L β} {y : Eval V' L' γ} {a : β} {b : γ}
    {f : β → Eval V L α} {g : γ → Eval V' L' α} (hx : outcome x s = some (.ok a, s))
    (hy : outcome y t = some (.ok b, t)) (h : GiveSame s (f a) t (g b)) :
    GiveSame s (x >>= f) t (y >>= g) := by
  obtain ⟨o, hf, hg⟩ := h
  refine ⟨o, ?_, ?_⟩
  · rw [outcome_bind_of_ok _ hx, hf]
  · rw [outcome_bind_of_ok _ hy, hg]

end GiveSame

theorem Eval.outcome_force {ev : Evaluator V L} {i : Nat} (h : s.slot i = .ready v)
    (label : String) : outcome (Eval.force ev label i) s = some (.ok v, s) := by
  rw [Eval.force, outcome_bind_of_ok _ (outcome_get s), h]
  rfl

theorem Eval.outcome_forceTail (ev : Evaluator V L) {i : Nat} (h : s.slot i = .ready v) (n : Nat) :
    outcome (Eval.forceTail n ev i) s =
      if v.isList then some (.ok v, s)
      else (v.text s n).map (fun x => (.error (.notAList Prim.cons.name x), s)) := by
  rw [Eval.forceTail, outcome_bind_of_ok _ (Eval.outcome_force h _)]
  split
  · rfl
  · rw [outcome_bind, Eval.outcome_shown]
    cases v.text s n <;> rfl

variable [Variable V] [Variable V']

/-- Writing two values that look the same in full gives the same. -/
theorem LooksLike.render (h : LooksLike s v t w) (n : Nat) :
    GiveSame s (v.render n) t (w.render n) := by
  obtain ⟨R, hvw, hR⟩ := h
  have htext := fun n => text_eq_of_alike (fun v w hvw => (hR v w hvw).1) n
  suffices hall : (∀ v w, R v w → GiveSame s (v.render n) t (w.render n)) ∧
      ∀ h k h' k', R (.pair h k) (.pair h' k') →
        GiveSame s (Value.renderItems n h k) t (Value.renderItems n h' k') from hall.1 v w hvw
  clear hvw
  induction n with
  | zero => exact ⟨fun v w _ => ⟨none, rfl, rfl⟩, fun h k h' k' _ => ⟨none, rfl, rfl⟩⟩
  | succ n ih =>
    obtain ⟨ihv, ihi⟩ := ih
    refine ⟨fun v w hvw => ?_, fun h k h' k' hvw => ?_⟩
    · obtain ⟨hlike, -⟩ := hR v w hvw
      cases hlike with
      | closure harity =>
        refine ⟨some (.ok _), rfl, ?_⟩
        simp [Value.renderBy, Value.plainText, harity]
      | @ref i j hcell =>
        exact .step (outcome_get s) (outcome_get t) (.bind (ihv _ _ hcell) (fun _ => .pure _))
      | @pair h k h' k' =>
        exact .bind (ihi _ _ _ _ hvw) (fun _ => .pure _)
      | _ => exact .pure _
    · obtain ⟨hlike, hready⟩ := hR _ _ hvw
      obtain ⟨⟨a, a', ha, ha', haa⟩, b, b', hb, hb', hbb⟩ := hlike.parts hready
      simp only [Value.renderItems, Value.renderItemsBy]
      refine .step (Eval.outcome_force ha _) (Eval.outcome_force ha' _) ?_
      refine .bind (ihv _ _ haa) (fun head => ?_)
      obtain ⟨hlike, -⟩ := hR _ _ hbb
      have hforce := Eval.outcome_forceTail (Machine.eval n) hb n
      have hforce' := Eval.outcome_forceTail (Machine.eval n) hb' n
      rw [← hlike.isList_eq, ← (htext n).1 b b' hbb] at hforce'
      by_cases hlist : b.isList = true
      · rw [if_pos hlist] at hforce hforce'
        refine .step hforce hforce' ?_
        cases hlike with
        | null => exact .pure _
        | pair => exact .bind (ihi _ _ _ _ hbb) (fun _ => .pure _)
        | _ => cases hlist
      · -- both sides fail with the text of the tail
        rw [if_neg hlist] at hforce hforce'
        refine ⟨(b.text s n).map (fun x => .error (.notAList Prim.cons.name x)), ?_, ?_⟩
        · rw [outcome_bind, hforce]
          cases b.text s n <;> rfl
        · rw [outcome_bind, hforce']
          cases b.text s n <;> rfl

end Mapling
