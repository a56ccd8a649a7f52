import Mapling.Proofs.Arena.Decoding
import Mapling.Proofs.Arena.Writing
import Mapling.Proofs.Eval.Fuel

/-! # A run in an arena follows the evaluator

`Follows` relates a computation in an arena to one of the evaluator, in both directions: what the
first one gives the second one gives with the same number, and what the second one gives the
first one gives for every number that is large enough. The numbers differ because a message that
shows a value decodes its cell, which may take more steps than writing the value does. The one
thing that the arena may do on its own is run out of room.

What holds after a computation is said with respect to a world and a store at which it is taken
to begin, and these may lie further back than its own beginning: the slots of a frame are made
before the arguments of a call are evaluated, and get their words after that. -/

namespace Mapling

variable {s' : Store Address Layout}

/-- What is to hold after both computations succeeded: in which world, with which run and result
in the arena, and with which store and result of the evaluator. -/
abbrev Post (α β : Type) := World → Run → α → Store Address Layout → β → Prop

/-- The run ended because there is no more room. -/
def Full {α : Type} (o : Except ArenaError α × Run) : Prop := ∃ c, o.1 = .error (.exhausted c)

section

variable {forms : List (Nat × Form)} {m : Machine} {α β γ δ : Type}

/-- Both computations fail with the same error, or both succeed, match, and `Q` holds. -/
inductive Corresponds (forms : List (Nat × Form)) (m : Machine) (ω0 : World)
    (s0 : Store Address Layout) (Q : Post α β) :
    Except ArenaError α × Run → Except EvalError β × Store Address Layout → Prop
  | error (e : EvalError) (r : Run) (s : Store Address Layout) :
      Corresponds forms m ω0 s0 Q (.error (.eval e), r) (.error e, s)
  | ok {ω : World} {r : Run} {s : Store Address Layout} {x : α} {y : β}
      (later : ω0.Later s0 ω s) (hmatch : Matches forms m ω r s) (post : Q ω r x s y) :
      Corresponds forms m ω0 s0 Q (.ok x, r) (.ok y, s)

/-- The computations `a` in an arena follow the computation `b` of the evaluator. -/
structure Follows (forms : List (Nat × Form)) (m : Machine) (n : Nat) (ω0 : World)
    (s0 : Store Address Layout) (r : Run) (s : Store Address Layout) (a : Nat → ArenaEval α)
    (b : Eval Address Layout β) (Q : Post α β) : Prop where
  forth : ∀ o, outcome (a n) r = some o →
    Full o ∨ ∃ o', outcome b s = some o' ∧ Corresponds forms m ω0 s0 Q o o'
  back : ∀ o', outcome b s = some o' → ∃ o, Ends (fun k => outcome (a k) r) o ∧
    (Full o ∨ Corresponds forms m ω0 s0 Q o o')

namespace Follows

variable {n : Nat} {ω0 ω : World} {s0 s : Store Address Layout} {r r' : Run}
  {a : Nat → ArenaEval α} {b : Eval Address Layout β} {Q : Post α β}

theorem of_outcomes {o : Except ArenaError α × Run}
    {o' : Except EvalError β × Store Address Layout} (ha : ∀ k, outcome (a k) r = some o)
    (hb : outcome b s = some o') (h : Full o ∨ Corresponds forms m ω0 s0 Q o o') :
    Follows forms m n ω0 s0 r s a b Q := by
  refine ⟨fun o1 ho1 => ?_, fun o2 ho2 => ?_⟩
  · rw [ha n] at ho1
    cases ho1
    rcases h with h | h
    · exact .inl h
    · exact .inr ⟨o', hb, h⟩
  · rw [hb] at ho2
    cases ho2
    exact ⟨o, ⟨0, fun k _ => ha k⟩, h⟩

theorem pure {x : α} {y : β} (hlater : ω0.Later s0 ω s) (h : Matches forms m ω r s)
    (hQ : Q ω r x s y) : Follows forms m n ω0 s0 r s (fun _ => pure x) (pure y) Q :=
  of_outcomes (fun _ => rfl) rfl (.inr (.ok hlater h hQ))

theorem fault (e : EvalError) :
    Follows forms m n ω0 s0 r s (fun _ => ArenaEval.fault e) (throw e) Q :=
  of_outcomes (fun _ => rfl) rfl (.inr (.error e r s))

/-- There is no outcome on either side. -/
theorem exhausted (ha : outcome (a n) r = none) (hb : outcome b s = none) :
    Follows forms m n ω0 s0 r s a b Q := by
  refine ⟨fun o ho => ?_, fun o' ho' => ?_⟩
  · rw [ha] at ho
    cases ho
  · rw [hb] at ho'
    cases ho'

theorem mono {P : Post α β} (h : Follows forms m n ω0 s0 r s a b Q)
    (hQ : ∀ ω r' x s' y, outcome b s = some (.ok y, s') → Q ω r' x s' y → P ω r' x s' y) :
    Follows forms m n ω0 s0 r s a b P := by
  have hcorr : ∀ {o o'}, outcome b s = some o' → Corresponds forms m ω0 s0 Q o o' →
      Corresponds forms m ω0 s0 P o o' := by
    intro o o' hb hcorr
    cases hcorr with
    | error e => exact .error e _ _
    | ok later hmatch post => exact .ok later hmatch (hQ _ _ _ _ _ hb post)
  refine ⟨fun o ho => ?_, fun o' ho' => ?_⟩
  · rcases h.forth o ho with hfull | ⟨o', ho', hoo'⟩
    · exact .inl hfull
    · exact .inr ⟨o', ho', hcorr ho' hoo'⟩
  · obtain ⟨o, ho, hoo'⟩ := h.back o' ho'
    exact ⟨o, ho, hoo'.imp_right (hcorr ho')⟩

/-- The beginning may be moved back. What is known to have grown since the later one is kept. -/
theorem rebaseKeep (hlater : ω0.Later s0 ω s) (h : Follows forms m n ω s r s a b Q) :
    Follows forms m n ω0 s0 r s a b
      (fun ω' r' x s' y => ω.Later s ω' s' ∧ Q ω' r' x s' y) := by
  have hcorr : ∀ {o o'}, Corresponds forms m ω s Q o o' → Corresponds forms m ω0 s0
      (fun ω' r' x s' y => ω.Later s ω' s' ∧ Q ω' r' x s' y) o o' := by
    intro o o' hcorr
    cases hcorr with
    | error e => exact .error e _ _
    | ok later hmatch post => exact .ok (hlater.trans later) hmatch ⟨later, post⟩
  refine ⟨fun o ho => ?_, fun o' ho' => ?_⟩
  · rcases h.forth o ho with hfull | ⟨o', ho', hoo'⟩
    · exact .inl hfull
    · exact .inr ⟨o', ho', hcorr hoo'⟩
  · obtain ⟨o, ho, hoo'⟩ := h.back o' ho'
    exact ⟨o, ho, hoo'.imp_right hcorr⟩

theorem rebase (hlater : ω0.Later s0 ω s) (h : Follows forms m n ω s r s a b Q) :
    Follows forms m n ω0 s0 r s a b Q :=
  (h.rebaseKeep hlater).mono (fun _ _ _ _ _ _ hQ => hQ.2)

/-- One level of the recursion. -/
theorem succ (h : Follows forms m n ω0 s0 r s (fun k => a (k + 1)) b Q) :
    Follows forms m (n + 1) ω0 s0 r s a b Q := by
  refine ⟨h.forth, fun o' ho' => ?_⟩
  obtain ⟨o, ⟨N, hN⟩, hoo'⟩ := h.back o' ho'
  refine ⟨o, ⟨N + 1, fun k hk => ?_⟩, hoo'⟩
  obtain ⟨k, rfl⟩ : ∃ j, k = j + 1 := ⟨k - 1, by omega⟩
  exact hN k (by omega)

/-- One computation after another. -/
theorem andThen {f : Nat → α → ArenaEval γ} {g : β → Eval Address Layout δ} {P : Post γ δ}
    (h : Follows forms m n ω0 s0 r s a b Q)
    (hf : ∀ ω r' x s' y, ω0.Later s0 ω s' → Matches forms m ω r' s' → Q ω r' x s' y →
      Follows forms m n ω0 s0 r' s' (fun k => f k x) (g y) P) :
    Follows forms m n ω0 s0 r s (fun k => a k >>= f k) (b >>= g) P := by
  constructor
  · intro o ho
    rw [outcome_bind] at ho
    rcases hx : outcome (a n) r with _ | ⟨e | x, r1⟩
    · rw [hx] at ho
      cases ho
    · rw [hx] at ho
      cases ho
      rcases h.forth _ hx with ⟨c, hc⟩ | ⟨o', ho', hcorr⟩
      · cases hc
        exact .inl ⟨c, rfl⟩
      · cases hcorr with
        | error e => exact .inr ⟨_, outcome_bind_of_error _ ho', .error e _ _⟩
    · rw [hx] at ho
      rcases h.forth _ hx with ⟨c, hc⟩ | ⟨o', ho', hcorr⟩
      · cases hc
      · cases hcorr with
        | ok later hmatch post =>
          rw [outcome_bind_of_ok _ ho']
          exact (hf _ _ _ _ _ later hmatch post).forth o ho
  · intro o' ho'
    rw [outcome_bind] at ho'
    rcases hy : outcome b s with _ | ⟨e | y, s1⟩
    · rw [hy] at ho'
      cases ho'
    · rw [hy] at ho'
      cases ho'
      obtain ⟨o, ⟨N, hN⟩, hcorr⟩ := h.back _ hy
      rcases hcorr with ⟨c, hc⟩ | hcorr
      · obtain ⟨_, r1⟩ := o
        cases hc
        exact ⟨_, ⟨N, fun k hk => outcome_bind_of_error _ (hN k hk)⟩, .inl ⟨c, rfl⟩⟩
      · cases hcorr with
        | error e r1 =>
          exact ⟨_, ⟨N, fun k hk => outcome_bind_of_error _ (hN k hk)⟩, .inr (.error e r1 _)⟩
    · rw [hy] at ho'
      obtain ⟨o, ⟨N, hN⟩, hcorr⟩ := h.back _ hy
      rcases hcorr with ⟨c, hc⟩ | hcorr
      · obtain ⟨_, r1⟩ := o
        cases hc
        exact ⟨_, ⟨N, fun k hk => outcome_bind_of_error _ (hN k hk)⟩, .inl ⟨c, rfl⟩⟩
      · cases hcorr with
        | ok later hmatch post =>
          obtain ⟨o2, ⟨N', hN'⟩, hcorr⟩ := (hf _ _ _ _ _ later hmatch post).back o' ho'
          refine ⟨o2, ⟨max N N', fun k hk => ?_⟩, hcorr⟩
          have h1 := hN k (by omega)
          have h2 := hN' k (by omega)
          dsimp only at h1 h2 ⊢
          rw [outcome_bind_of_ok _ h1, h2]

/-- One computation after another, where the first one begins here. -/
theorem bind {f : Nat → α → ArenaEval γ} {g : β → Eval Address Layout δ} {P : Post γ δ}
    (hlater : ω0.Later s0 ω s) (h : Follows forms m n ω s r s a b Q)
    (hf : ∀ ω' r' x s' y, ω.Later s ω' s' → Matches forms m ω' r' s' → Q ω' r' x s' y →
      Follows forms m n ω0 s0 r' s' (fun k => f k x) (g y) P) :
    Follows forms m n ω0 s0 r s (fun k => a k >>= f k) (b >>= g) P :=
  (h.rebaseKeep hlater).andThen
    (fun ω' r' x s' y _ hmatch hQ => hf ω' r' x s' y hQ.1 hmatch hQ.2)

/-! ## Steps on one side -/

variable {f : Nat → γ → ArenaEval α} {x : γ}

/-- A step in the arena that succeeds, whatever the number is. -/
theorem leftEach {act : Nat → ArenaEval γ} (hact : ∀ k, outcome (act k) r = some (.ok x, r'))
    (h : Follows forms m n ω0 s0 r' s (fun k => f k x) b Q) :
    Follows forms m n ω0 s0 r s (fun k => act k >>= f k) b Q := by
  have heq : ∀ k, outcome (act k >>= f k) r = outcome (f k x) r' :=
    fun k => outcome_bind_of_ok _ (hact k)
  refine ⟨fun o ho => h.forth o ((heq n).symm.trans ho), fun o' ho' => ?_⟩
  obtain ⟨o, ⟨N, hN⟩, hcorr⟩ := h.back o' ho'
  exact ⟨o, ⟨N, fun k hk => (heq k).trans (hN k hk)⟩, hcorr⟩

theorem left {act : ArenaEval γ} (hact : outcome act r = some (.ok x, r'))
    (h : Follows forms m n ω0 s0 r' s (fun k => f k x) b Q) :
    Follows forms m n ω0 s0 r s (fun k => act >>= f k) b Q :=
  leftEach (fun _ => hact) h

/-- A step in the arena that succeeds unless there is no room. -/
theorem leftMake {act : ArenaEval γ}
    (hact : (∃ c r1, outcome act r = some (.error (.exhausted c), r1)) ∨
      outcome act r = some (.ok x, r')) (h : Follows forms m n ω0 s0 r' s (fun k => f k x) b Q) :
    Follows forms m n ω0 s0 r s (fun k => act >>= f k) b Q := by
  rcases hact with ⟨c, r1, hact⟩ | hact
  · have hfull : ∀ k, outcome (act >>= f k) r = some (.error (.exhausted c), r1) :=
      fun k => outcome_bind_of_error _ hact
    refine ⟨fun o ho => ?_, fun o' _ => ⟨_, ⟨0, fun k _ => hfull k⟩, .inl ⟨c, rfl⟩⟩⟩
    rw [hfull n] at ho
    cases ho
    exact .inl ⟨c, rfl⟩
  · exact left hact h

/-- A step of the evaluator that succeeds. -/
theorem right {y : δ} {act : Eval Address Layout δ} {g : δ → Eval Address Layout β}
    (hact : outcome act s = some (.ok y, s')) (h : Follows forms m n ω0 s0 r s' a (g y) Q) :
    Follows forms m n ω0 s0 r s a (act >>= g) Q := by
  have heq : outcome (act >>= g) s = outcome (g y) s' := outcome_bind_of_ok _ hact
  refine ⟨fun o ho => ?_, fun o' ho' => h.back o' (heq.symm.trans ho')⟩
  rw [heq]
  exact h.forth o ho

/-- Make something on both sides. -/
theorem make {x : α} {y : β} {act : ArenaEval α}
    (hact : (∃ c r1, outcome act r = some (.error (.exhausted c), r1)) ∨
      outcome act r = some (.ok x, r'))
    (hb : outcome b s = some (.ok y, s')) (hlater : ω0.Later s0 ω s')
    (h : Matches forms m ω r' s') (hQ : Q ω r' x s' y) :
    Follows forms m n ω0 s0 r s (fun _ => act) b Q := by
  rcases hact with ⟨c, r1, hact⟩ | hact
  · exact of_outcomes (fun _ => hact) hb (.inl ⟨c, rfl⟩)
  · exact of_outcomes (fun _ => hact) hb (.inr (.ok hlater h hQ))

theorem mapLeft {f : α → γ} {P : Post γ β} (h : Follows forms m n ω0 s0 r s a b Q)
    (hQ : ∀ ω r' x s' y, outcome b s = some (.ok y, s') → Q ω r' x s' y → P ω r' (f x) s' y) :
    Follows forms m n ω0 s0 r s (fun k => do return f (← a k)) b P := by
  have hbind := (h.mono (P := fun ω r' x s' y => P ω r' (f x) s' y) hQ).andThen
    (g := fun y => (Pure.pure y : Eval Address Layout β)) (P := P)
    (fun ω r' x s' y later hmatch post => .pure later hmatch post)
  rwa [bind_pure] at hbind

/-- Nothing comes after a computation that cannot succeed. -/
theorem failing (h : Follows forms m n ω0 s0 r s a b (fun _ _ _ _ _ => False))
    (f : Nat → α → ArenaEval γ) (Q : Post γ β) :
    Follows forms m n ω0 s0 r s (fun k => a k >>= f k) b Q := by
  have hbind := h.andThen (f := f) (g := fun y => (Pure.pure y : Eval Address Layout β)) (P := Q)
    (fun _ _ _ _ _ _ _ hfalse => hfalse.elim)
  rwa [bind_pure] at hbind

theorem mapRight {g : β → δ} {P : Post α δ} (h : Follows forms m n ω0 s0 r s a b Q)
    (hQ : ∀ ω r' x s' y, Q ω r' x s' y → P ω r' x s' (g y)) :
    Follows forms m n ω0 s0 r s a (do return g (← b)) P := by
  have hbind := h.andThen (f := fun _ x => (Pure.pure x : ArenaEval α))
    (g := fun y => (Pure.pure (g y) : Eval Address Layout δ)) (P := P)
    (fun ω r' x s' y later hmatch post => .pure later hmatch (hQ ω r' x s' y post))
  simpa only [bind_pure] using hbind

end Follows

end

end Mapling
