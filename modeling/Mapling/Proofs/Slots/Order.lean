import Mapling.Proofs.Slots.Life

/-! # Slots that are left alone

Evaluation is nested: while a suspension is being evaluated by need, or while the definitions of a
frame are being evaluated, the rest of the program runs and may come across the same slot. What
keeps the slots in order is that nothing happens to a slot that is not initialised or is being
evaluated, except by the one computation that declared it or started to evaluate it
(`Undisturbed`). So this computation finds the slot as it left it, and what it does next is what the
life of the slot asks for.

This module says what that means for one computation, and compares computations with and without a
chronicle; `Slots.Sessions` goes through the evaluator. -/

namespace Mapling

variable {V L α β : Type} {more : List Nat} {x : Chronicled V L α} {s s' : Store V L}
  {c c' : Chronicle V L} {f : α → Chronicled V L β}

/-! ## Slots left alone -/

/-- Leaving aside the slots in `written`, a slot changes only if it is to be evaluated by need, and
nothing at all happens to a slot that is not initialised or is being evaluated. -/
structure Undisturbed (written : List Nat) (s : Store V L) (c : Chronicle V L) (s' : Store V L)
    (c' : Chronicle V L) : Prop where
  size : s.slots.size ≤ s'.slots.size
  slot : ∀ i < s.slots.size, i ∉ written → (∀ x, s.slot i ≠ .byNeed x) → s'.slot i = s.slot i
  history : ∀ i < s.slots.size, i ∉ written → s.slot i = .uninit ∨ s.slot i = .forcing →
    c'.history i = c.history i

namespace Undisturbed

variable {written : List Nat} {s s' s'' : Store V L} {c c' c'' : Chronicle V L} {i : Nat}

theorem of_slots (written : List Nat) (c : Chronicle V L) (h : s'.slots = s.slots) :
    Undisturbed written s c s' c :=
  ⟨by rw [h], fun i _ _ _ => by rw [Store.slot, h, ← Store.slot], fun _ _ _ _ => rfl⟩

theorem trans (h : Undisturbed written s c s' c') (h' : Undisturbed written s' c' s'' c'') :
    Undisturbed written s c s'' c'' := by
  have hsize : ∀ {i}, i < s.slots.size → i < s'.slots.size :=
    fun hi => Nat.lt_of_lt_of_le hi h.size
  refine ⟨Nat.le_trans h.size h'.size, fun i hi hw hx => ?_, fun i hi hw hx => ?_⟩
  · have hslot := h.slot i hi hw hx
    rw [h'.slot i (hsize hi) hw (hslot ▸ hx), hslot]
  · have hslot : s'.slot i = s.slot i := by
      apply h.slot i hi hw
      intro x hneed
      rw [hneed] at hx
      rcases hx with hx | hx <;> cases hx
    rw [h'.history i (hsize hi) hw (hslot ▸ hx), h.history i hi hw hx]

theorem mono (h : Undisturbed written s c s' c') (hsub : ∀ i ∈ written, i ∈ more) :
    Undisturbed more s c s' c' :=
  ⟨h.size, fun i hi hw => h.slot i hi (fun hmem => hw (hsub i hmem)),
    fun i hi hw => h.history i hi (fun hmem => hw (hsub i hmem))⟩

/-- Slots that are new or to be evaluated by need may have been written. -/
theorem shrink (h : Undisturbed written s c s' c')
    (hw : ∀ i ∈ written, i < s.slots.size → ∃ x, s.slot i = .byNeed x) :
    Undisturbed [] s c s' c' := by
  refine ⟨h.size, fun i hi _ hx => ?_, fun i hi _ hx => ?_⟩
  · apply h.slot i hi _ hx
    intro hmem
    obtain ⟨x, hneed⟩ := hw i hmem hi
    exact hx x hneed
  · apply h.history i hi _ hx
    intro hmem
    obtain ⟨x, hneed⟩ := hw i hmem hi
    rw [hneed] at hx
    rcases hx with hx | hx <;> cases hx

/-- Putting a slot in another state. -/
theorem setSlot (s : Store V L) (c : Chronicle V L) (i : Nat) (x : Slot V L)
    (news : List (Moment V L)) :
    Undisturbed [i] s c (s.setSlot i x) (Chronicle.about i news ++ c) := by
  refine ⟨by rw [Store.size_setSlot], fun j _ hw _ => ?_, fun j _ hw _ => ?_⟩
  · rw [Store.slot_setSlot, if_neg]
    rintro ⟨rfl, -⟩
    exact hw (List.mem_singleton_self _)
  · rw [Chronicle.history_about, if_neg]
    rintro rfl
    exact hw (List.mem_singleton_self _)

theorem access (c : Chronicle V L) {v : Value V L}
    (h : s.slot i = .ready v ∨ ∃ x, s.slot i = .byName x) :
    Undisturbed [] s c s ((i, .access v) :: c) := by
  refine ⟨le_rfl, fun _ _ _ _ => rfl, fun j _ _ hx => ?_⟩
  apply Chronicle.history_cons_of_ne
  rintro rfl
  rcases h with h | ⟨x, h⟩ <;> rw [h] at hx <;> rcases hx with hx | hx <;> cases hx

theorem newPair (s : Store V L) (c : Chronicle V L) (head tail : Slot V L) :
    Undisturbed [] s c (s.newPair head tail).2
      ((s.slots.size + 1, .state tail) :: (s.slots.size, .state head) :: c) := by
  refine ⟨?_, fun j hj _ _ => ?_, fun j hj _ _ => ?_⟩
  · rw [Store.size_newPair]
    omega
  · rw [Store.slot_newPair, if_neg (by omega), if_neg (by omega)]
  · rw [Chronicle.history_cons_of_ne (by omega), Chronicle.history_cons_of_ne (by omega)]

theorem newFrame (s : Store V L) (c : Chronicle V L) (names : List String) :
    Undisturbed [] s c (s.newFrame names).2 (Chronicle.ofFrame (s.newFrame names).1 ++ c) := by
  refine ⟨?_, fun j _ _ _ => Store.slot_newFrame s names j, fun j hj _ _ => ?_⟩
  · rw [Store.size_newFrame]
    omega
  · rw [Chronicle.history_newFrame, if_neg (by omega)]

end Undisturbed

/-! ## Computations that keep the slots in order -/

/-- A computation that started from a store and a chronicle has kept the slots in order. If its
number was used up, slots that it was working on may be left as they were at that moment. -/
structure InOrder (written : List Nat) (s : Store V L) (c : Chronicle V L)
    (r : Except Stop α × Store V L × Chronicle V L) : Prop where
  tells : r.2.2.Tells r.2.1
  undisturbed : r.1 ≠ .error .exhausted → Undisturbed written s c r.2.1 r.2.2

namespace Chronicled

theorem account_bind (x : Chronicled V L α) (f : α → Chronicled V L β) (s : Store V L)
    (c : Chronicle V L) :
    (x >>= f).account s c = match x.account s c with
      | (.ok a, s', c') => (f a).account s' c'
      | (.error e, s', c') => (.error e, s', c') := by
  simp only [account, ExceptT.run_bind, StateT.run_bind]
  rcases x.run.run (s, c) with ⟨_ | _, _, _⟩ <;> rfl

theorem account_bind_of_ok (f : α → Chronicled V L β) {a : α}
    (h : x.account s c = (.ok a, s', c')) :
    (x >>= f).account s c = (f a).account s' c' := by
  rw [account_bind, h]

theorem account_bind_of_error (f : α → Chronicled V L β) {e : Stop}
    (h : x.account s c = (.error e, s', c')) : (x >>= f).account s c = (.error e, s', c') := by
  rw [account_bind, h]

theorem account_andThen (x : Chronicled V L α)
    (change : Except EvalError α → Store V L → Store V L)
    (entries : Except EvalError α → Chronicle V L) (s : Store V L) (c : Chronicle V L) :
    (x.andThen change entries).account s c = match x.account s c with
      | (.ok a, s, c) => (.ok a, change (.ok a) s, entries (.ok a) ++ c)
      | (.error (.error e), s, c) =>
        (.error (.error e), change (.error e) s, entries (.error e) ++ c)
      | (.error .exhausted, s, c) => (.error .exhausted, s, c) := rfl

/-- An access comes after what is accessed has been computed. -/
theorem give_eq (i : Nat) (x : Chronicled V L (Value V L)) :
    EvalOps.give i x = x >>= fun v => EvalOps.give i (pure v) := rfl

theorem account_put (i : Nat) (x : Slot V L) (s : Store V L) (c : Chronicle V L) :
    (EvalOps.put i x : Chronicled V L Unit).account s c =
      (.ok (), s.setSlot i x, (i, .state x) :: c) := rfl

theorem account_newFrame (names : List String) (s : Store V L) (c : Chronicle V L) :
    (EvalOps.newFrame names : Chronicled V L Frame).account s c =
      (.ok (s.newFrame names).1, (s.newFrame names).2,
        Chronicle.ofFrame (s.newFrame names).1 ++ c) := rfl

end Chronicled

namespace InOrder

variable {written : List Nat} {s : Store V L} {c : Chronicle V L}

theorem mono {r : Except Stop α × Store V L × Chronicle V L} (h : InOrder written s c r)
    (hsub : ∀ i ∈ written, i ∈ more) : InOrder more s c r :=
  ⟨h.tells, fun hr => (h.undisturbed hr).mono hsub⟩

/-- Slots stay in order when two computations that keep them in order are run in turn. -/
theorem bind (hx : InOrder written s c (x.account s c))
    (hf : ∀ a s' c', x.account s c = (.ok a, s', c') → c'.Tells s' →
      Undisturbed written s c s' c' → InOrder written s' c' ((f a).account s' c')) :
    InOrder written s c ((x >>= f).account s c) := by
  rcases hr : x.account s c with ⟨e | a, s', c'⟩
  · rw [Chronicled.account_bind_of_error f hr]
    rw [hr] at hx
    refine ⟨hx.tells, fun hne => hx.undisturbed (fun he => hne ?_)⟩
    cases he
    rfl
  · rw [Chronicled.account_bind_of_ok f hr]
    rw [hr] at hx
    have hu : Undisturbed written s c s' c' := hx.undisturbed (fun he => by cases he)
    have h := hf a s' c' hr hx.tells hu
    exact ⟨h.tells, fun hne => hu.trans (h.undisturbed hne)⟩

end InOrder

/-! ## The chronicle does not influence the work -/

namespace Chronicled

/-- Without the chronicle, `x` is `y`. -/
def Agrees (x : Chronicled V L α) (y : Eval V L α) : Prop :=
  ∀ s c, forget (x.account s c) = outcome y s

namespace Agrees

variable {x : Chronicled V L α} {y : Eval V L α}

theorem bind {g : α → Eval V L β} (hx : Agrees x y) (hf : ∀ a, Agrees (f a) (g a)) :
    Agrees (x >>= f) (y >>= g) := by
  intro s c
  rw [account_bind, outcome_bind, ← hx s c]
  rcases x.account s c with ⟨(_ | _) | a, s', c'⟩
  · rfl
  · rfl
  · exact hf a s' c'

theorem andThen (hx : Agrees x y) (change : Except EvalError α → Store V L → Store V L)
    (entries : Except EvalError α → Chronicle V L) :
    Agrees (x.andThen change entries) (EvalOps.andThen y change) := by
  intro s c
  rw [account_andThen, Eval.outcome_andThen, ← hx s c]
  rcases x.account s c with ⟨(_ | _) | a, s', c'⟩ <;> rfl

/-- An access is no work. -/
theorem give {x : Chronicled V L (Value V L)} {y : Eval V L (Value V L)} (hx : Agrees x y)
    (i : Nat) : Agrees (EvalOps.give i x) y := by
  intro s c
  rw [give_eq, account_bind, ← hx s c]
  rcases x.account s c with ⟨(_ | _) | a, s', c'⟩ <;> rfl

end Agrees

end Chronicled

end Mapling
