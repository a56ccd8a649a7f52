import Mapling.Proofs.Outcome

/-! # Runs that meet in the end

Two families of computations, each indexed by the number that bounds its recursion, are compared
by what they come to: both succeed and their answers fit, or the first fails and the second does
not succeed. Neither family is assumed to have an outcome. `Meets g N M` says that this is so as
soon as the first has an outcome for a number below `N` or the second succeeds for a number below
`M`. For all `N` and `M` together it says that each succeeds if the other does; for fixed ones it
can be proved by induction, where a step of one side lowers its index by one.

There is no rule for sequences. The computations are always taken to the very end, and what one
part of them does is stated for every pair of continuations that meet. -/

namespace Mapling

variable {ε ε' σ τ α β : Type} {x' : Nat → ExceptT ε (StateT σ Option) α}
  {y' : Nat → ExceptT ε' (StateT τ Option) β}

def Succeeds (x : ExceptT ε (StateT σ Option) α) (s : σ) : Prop :=
  ∃ a s', outcome x s = some (.ok a, s')

/-- None of the computations gives a value; and if one of them fails, so do all later ones, with
the same error. -/
structure Fails (x : Nat → ExceptT ε (StateT σ Option) α) (s : σ) : Prop where
  never : ∀ n, ¬ Succeeds (x n) s
  settles : ∀ n n' o, n ≤ n' → outcome (x n) s = some o → outcome (x n') s = some o

namespace Fails

variable {x : Nat → ExceptT ε (StateT σ Option) α} {s : σ}

theorem throw (e : ε) : Fails (fun _ => (throw e : ExceptT ε (StateT σ Option) α)) s := by
  refine ⟨fun n => ?_, fun n n' o _ ho => ho⟩
  rintro ⟨a, s', hok⟩
  cases hok

/-- A sequence that starts with a failure. -/
theorem bind (h : Fails x s) (f : Nat → α → ExceptT ε (StateT σ Option) β) :
    Fails (fun n => x n >>= f n) s := by
  have hsame : ∀ n o, outcome (x n >>= f n) s = some o →
      ∃ e s', outcome (x n) s = some (.error e, s') ∧ o = (.error e, s') := by
    intro n o ho
    rcases hr : outcome (x n) s with _ | ⟨e | a, s'⟩
    · rw [outcome_bind, hr] at ho
      cases ho
    · rw [outcome_bind_of_error _ hr] at ho
      cases ho
      exact ⟨e, s', rfl, rfl⟩
    · exact absurd ⟨a, s', hr⟩ (h.never n)
  refine ⟨fun n => ?_, fun n n' o hn ho => ?_⟩
  · rintro ⟨a, s', hok⟩
    obtain ⟨e, s1, -, heq⟩ := hsame n _ hok
    cases heq
  · obtain ⟨e, s1, he, rfl⟩ := hsame n o ho
    exact outcome_bind_of_error _ (h.settles n n' _ hn he)

/-- A failure whose message is made first. -/
theorem of_below {y : Nat → ExceptT ε (StateT σ Option) β} (e : β → ε)
    (hbelow : ∀ n n', n ≤ n' → Below (y n) (y n')) :
    Fails (fun n => (do MonadExcept.throw (e (← y n)) : ExceptT ε (StateT σ Option) α)) s := by
  refine ⟨fun n => ?_, fun n n' o hn ho => Below.bind (hbelow n n' hn) (fun _ => .refl _) s o ho⟩
  rintro ⟨a, s', hok⟩
  obtain ⟨b, s1, -, hthrow⟩ := outcome_bind_ok.mp hok
  cases hthrow

end Fails

/-- Which answers fit, and which errors of the first side excuse it from having one. -/
structure Goal (ε σ τ α β : Type) where
  fits : α → σ → β → τ → Prop
  excused : ε → Prop

/-- As soon as `x` has an outcome for a number below `N` or `y` succeeds for a number below `M`,
they end in answers that fit, or `x` ends in an error and `y` does not succeed below `M`. -/
def Meets (g : Goal ε σ τ α β) (N M : Nat) (x : Nat → ExceptT ε (StateT σ Option) α) (s : σ)
    (y : Nat → ExceptT ε' (StateT τ Option) β) (t : τ) : Prop :=
  (∃ n, n < N ∧ outcome (x n) s ≠ none) ∨ (∃ m, m < M ∧ Succeeds (y m) t) →
    (∃ a s' b t', Ends (fun n => outcome (x n) s) (.ok a, s') ∧
      Ends (fun m => outcome (y m) t) (.ok b, t') ∧ g.fits a s' b t') ∨
    ∃ e s', Ends (fun n => outcome (x n) s) (.error e, s') ∧
      (g.excused e ∨ ∀ m, m < M → ¬ Succeeds (y m) t)

namespace Meets

variable {g : Goal ε σ τ α β} {N M : Nat} {x : Nat → ExceptT ε (StateT σ Option) α} {s : σ}
  {y : Nat → ExceptT ε' (StateT τ Option) β} {t : τ}

/-- Other computations, which have an outcome or succeed only where these do and end as these do. -/
theorem imp {N' M' : Nat} (h : Meets g N M x s y t)
    (hx : ∀ n < N', outcome (x' n) s ≠ none → ∃ n, n < N ∧ outcome (x n) s ≠ none)
    (hy : ∀ m < M', Succeeds (y' m) t → ∃ m, m < M ∧ Succeeds (y m) t)
    (hx' : ∀ {o}, Ends (fun n => outcome (x n) s) o → Ends (fun n => outcome (x' n) s) o)
    (hy' : ∀ {o}, Ends (fun m => outcome (y m) t) o → Ends (fun m => outcome (y' m) t) o) :
    Meets g N' M' x' s y' t := by
  intro htrigger
  have htrigger' : (∃ n, n < N ∧ outcome (x n) s ≠ none) ∨ ∃ m, m < M ∧ Succeeds (y m) t := by
    rcases htrigger with ⟨n, hn, ho⟩ | ⟨m, hm, hsucceeds⟩
    · exact .inl (hx n hn ho)
    · exact .inr (hy m hm hsucceeds)
  rcases h htrigger' with ⟨a, s', b, t', ha, hb, hfits⟩ | ⟨e, s', he, hno⟩
  · exact .inl ⟨a, s', b, t', hx' ha, hy' hb, hfits⟩
  · refine .inr ⟨e, s', hx' he, hno.imp id (fun hno m hm hsucceeds => ?_)⟩
    obtain ⟨m', hm', hsucceeds'⟩ := hy m hm hsucceeds
    exact hno m' hm' hsucceeds'

theorem mono {N' M' : Nat} (h : Meets g N M x s y t) (hN : N' ≤ N) (hM : M' ≤ M) :
    Meets g N' M' x s y t :=
  h.imp (fun n hn ho => ⟨n, by omega, ho⟩) (fun m hm hy => ⟨m, by omega, hy⟩) id id

/-! ## Ends -/

/-- Both sides have their answers. -/
theorem of_ok (a : α) (s' : σ) (b : β) (t' : τ) (hx : ∀ n, outcome (x n) s = some (.ok a, s'))
    (hy : ∀ m, outcome (y m) t = some (.ok b, t')) (hfits : g.fits a s' b t') :
    Meets g N M x s y t :=
  fun _ => .inl ⟨a, s', b, t', ⟨0, fun n _ => hx n⟩, ⟨0, fun m _ => hy m⟩, hfits⟩

/-- Neither side succeeds. -/
theorem of_fails (hx : Fails x s) (hy : ∀ m, m < M → ¬ Succeeds (y m) t) :
    Meets g N M x s y t := by
  rintro (⟨n, -, ho⟩ | ⟨m, hm, hsucceeds⟩)
  · rcases hr : outcome (x n) s with _ | ⟨e | a, s'⟩
    · exact absurd hr ho
    · exact .inr ⟨e, s', ⟨n, fun n' hn => hx.settles n n' _ hn hr⟩, .inr hy⟩
    · exact absurd ⟨a, s', hr⟩ (hx.never n)
  · exact absurd hsucceeds (hy m hm)

theorem of_both_fail (hx : Fails x s) (hy : Fails y t) : Meets g N M x s y t :=
  of_fails hx (fun m _ => hy.never m)

/-- Two sequences that start with failures. -/
theorem of_first_fails {γ δ : Type} {g : Goal ε σ τ γ δ}
    {f : Nat → α → ExceptT ε (StateT σ Option) γ} {f' : Nat → β → ExceptT ε' (StateT τ Option) δ}
    (hx : Fails x s) (hy : Fails y t) :
    Meets g N M (fun n => x n >>= f n) s (fun m => y m >>= f' m) t :=
  of_both_fail (hx.bind f) (hy.bind f')

/-- The first side ends in an error that excuses it. -/
theorem of_excused (e : ε) (s' : σ) (hx : ∀ n, outcome (x n) s = some (.error e, s'))
    (he : g.excused e) : Meets g N M x s y t :=
  fun _ => .inr ⟨e, s', ⟨0, fun n _ => hx n⟩, .inl he⟩

/-- A side that meets one that never succeeds does not succeed. -/
theorem not_succeeds (h : Meets g N M x s y t) (hx : ∀ n, ¬ Succeeds (x n) s)
    (hexcused : ∀ e, ¬ g.excused e) (m : Nat) (hm : m < M) : ¬ Succeeds (y m) t := by
  intro hy
  rcases h (.inr ⟨m, hm, hy⟩) with ⟨a, s', _, _, ⟨n, hok⟩, -⟩ | ⟨e, s', -, he | hno⟩
  · exact hx n ⟨a, s', hok n le_rfl⟩
  · exact hexcused e he
  · exact hno m hm hy

/-! ## Steps -/

/-- The first side goes on as another computation. -/
theorem congr_left {s' : σ} (hx : ∀ n, outcome (x n) s = outcome (x' n) s')
    (h : Meets g N M x' s' y t) : Meets g N M x s y t := by
  unfold Meets at h ⊢
  simpa only [hx] using h

/-- The second side goes on as another computation. -/
theorem congr_right {t' : τ} (hy : ∀ m, outcome (y m) t = outcome (y' m) t')
    (h : Meets g N M x s y' t') : Meets g N M x s y t := by
  unfold Meets Succeeds at h ⊢
  simpa only [hy] using h

/-- One level of the recursion of the first side. -/
theorem left (hzero : outcome (x 0) s = none)
    (h : Meets g (N - 1) M (fun n => x (n + 1)) s y t) : Meets g N M x s y t := by
  refine h.imp (fun n hn ho => ?_) (fun m hm hy => ⟨m, hm, hy⟩) (fun h => h.succ) id
  cases n with
  | zero => exact absurd hzero ho
  | succ n => exact ⟨n, by omega, ho⟩

/-- One level of the recursion of the second side. -/
theorem right (hzero : outcome (y 0) t = none)
    (h : Meets g N (M - 1) x s (fun m => y (m + 1)) t) : Meets g N M x s y t := by
  refine h.imp (fun n hn ho => ⟨n, hn, ho⟩) (fun m hm hy => ?_) id (fun h => h.succ)
  cases m with
  | zero =>
    obtain ⟨b, t', hok⟩ := hy
    rw [hzero] at hok
    cases hok
  | succ m => exact ⟨m, by omega, hy⟩

/-- The first side may be given a level to spare. -/
theorem spareLeft (h : Meets g N M x s y t) : Meets g (N - 1) M (fun n => x (n + 1)) s y t :=
  h.imp (fun n hn ho => ⟨n + 1, by omega, ho⟩) (fun m hm hy => ⟨m, hm, hy⟩) Ends.shift id

/-- The second side may be given a level to spare. -/
theorem spareRight (h : Meets g N M x s y t) : Meets g N (M - 1) x s (fun m => y (m + 1)) t :=
  h.imp (fun n hn ho => ⟨n, hn, ho⟩) (fun m hm hy => ⟨m + 1, by omega, hy⟩) id Ends.shift

/-- Some levels of the recursion of the second side. -/
theorem rightBy (d : Nat) (hnone : ∀ m, m < d → outcome (y m) t = none)
    (h : Meets g N (M - d) x s (fun m => y (m + d)) t) : Meets g N M x s y t := by
  induction d generalizing M y with
  | zero => exact h
  | succ d ih =>
    refine right (hnone 0 (Nat.zero_lt_succ d)) (ih (fun m hm => hnone (m + 1) (by omega)) ?_)
    rw [Nat.sub_sub, Nat.add_comm 1 d]
    simpa only [Nat.add_assoc, Nat.add_comm 1 d] using h

/-- The second side may be given some levels to spare. -/
theorem spareRightBy (d : Nat) (h : Meets g N M x s y t) :
    Meets g N (M - d) x s (fun m => y (m + d)) t := by
  induction d with
  | zero => exact h
  | succ d ih =>
    have hnext := ih.spareRight
    rw [Nat.sub_sub] at hnext
    simpa only [Nat.add_assoc, Nat.add_comm 1 d] using hnext

/-- The sides need to be known from number one on if they have no outcome for zero. -/
theorem of_succ (hx0 : outcome (x 0) s = none) (hy0 : outcome (y 0) t = none)
    (hx : ∀ n, outcome (x (n + 1)) s = outcome (x' (n + 1)) s)
    (hy : ∀ m, outcome (y (m + 1)) t = outcome (y' (m + 1)) t) (h : Meets g N M x' s y' t) :
    Meets g N M x s y t :=
  left hx0 (right hy0 (congr_left hx (congr_right hy h.spareLeft.spareRight)))

end Meets

end Mapling
