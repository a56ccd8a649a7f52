import Mapling.Proofs.Eval.Eager
import Mapling.Proofs.Scope.Addressed

/-! # Computations with names and with addresses in step

`InStep` relates a computation with names to one with addresses: from every well-scoped store
they give nothing both, or they fail both, or they succeed both, and the second store is the
resolved form of the first. It is closed under everything that evaluation is built from. -/

namespace Mapling

/-! ## Well-scoped stores -/

namespace Store.WellScoped

variable {s : Store Ident Unit}

theorem empty : (Store.empty : Store Ident Unit).WellScoped :=
  ⟨fun _ => trivial, fun _ => trivial⟩

theorem setSlot (hs : s.WellScoped) (i : Nat) {x : Slot Ident Unit} (hx : x.WellScoped) :
    (s.setSlot i x).WellScoped := by
  refine ⟨fun j => ?_, hs.cells⟩
  rw [Store.slot_setSlot]
  split
  · exact hx
  · exact hs.slots j

theorem setCell (hs : s.WellScoped) (i : Nat) {v : Value Ident Unit} (hv : v.WellScoped) :
    (s.setCell i v).WellScoped := by
  refine ⟨hs.slots, fun j => ?_⟩
  rw [Store.cell_setCell]
  split
  · exact hv
  · exact hs.cells j

theorem setDepth (hs : s.WellScoped) (m : Machine) (d : Nat) : (s.setDepth m d).WellScoped :=
  ⟨hs.slots, hs.cells⟩

theorem newRef (hs : s.WellScoped) {v : Value Ident Unit} (hv : v.WellScoped) :
    (s.newRef v).2.WellScoped := by
  refine ⟨hs.slots, fun j => ?_⟩
  rw [Store.cell_newRef]
  split
  · exact hv
  · exact hs.cells j

theorem newPair (hs : s.WellScoped) {head tail : Slot Ident Unit} (hh : head.WellScoped)
    (ht : tail.WellScoped) : (s.newPair head tail).2.WellScoped := by
  refine ⟨fun j => ?_, hs.cells⟩
  rw [Store.slot_newPair]
  split
  · exact hh
  · split
    · exact ht
    · exact hs.slots j

theorem newClosure (hs : s.WellScoped) (c : Closure Ident Unit) :
    (s.newClosure c).2.WellScoped := ⟨hs.slots, hs.cells⟩

theorem newFrame (hs : s.WellScoped) (names : List String) : (s.newFrame names).2.WellScoped := by
  refine ⟨fun j => ?_, hs.cells⟩
  rw [Store.slot_newFrame]
  exact hs.slots j

end Store.WellScoped

/-! ## Computations in step -/

section

variable {α β α' β' : Type}

def EvalError.isUnbound : EvalError → Bool
  | .unboundVariable _ => true
  | _ => false

/-- What two computations in step give. Neither fails to find a variable. -/
inductive Agree (Q : α → β → Prop) : Option (Except EvalError α × Store Ident Unit) →
    Option (Except EvalError β × Store Address Layout) → Prop
  | none : Agree Q none none
  | ok {a : α} {b : β} {s : Store Ident Unit} (h : Q a b) (hs : s.WellScoped) :
      Agree Q (some (.ok a, s)) (some (.ok b, s.addressed))
  | error {e e' : EvalError} {s : Store Ident Unit} (h : e.SameButCallee e')
      (hbound : e'.isUnbound = false) (hs : s.WellScoped) :
      Agree Q (some (.error e, s)) (some (.error e', s.addressed))

/-- From every well-scoped store the two computations agree. -/
def InStep (Q : α → β → Prop) (x : Eval Ident Unit α) (y : Eval Address Layout β) : Prop :=
  ∀ s, s.WellScoped → Agree Q (outcome x s) (outcome y s.addressed)

def SameValue (v : Value Ident Unit) (w : Value Address Layout) : Prop :=
  v.WellScoped ∧ w = v.addressed

/-- The state of a slot that is well scoped, and its resolved form. -/
def SameSlot (x : Slot Ident Unit) (y : Slot Address Layout) : Prop :=
  x.WellScoped ∧ y = x.addressed

namespace InStep

variable {Q : α → β → Prop} {Q' : α' → β' → Prop}

theorem pure {a : α} {b : β} (h : Q a b) :
    InStep Q (pure a : Eval Ident Unit α) (pure b : Eval Address Layout β) := by
  intro s hs
  exact .ok h hs

theorem throw {e e' : EvalError} (h : e.SameButCallee e') (hbound : e'.isUnbound = false) :
    InStep Q (throw e : Eval Ident Unit α) (throw e' : Eval Address Layout β) := by
  intro s hs
  exact .error h hbound hs

theorem exhausted :
    InStep Q (EvalOps.exhausted : Eval Ident Unit α)
      (EvalOps.exhausted : Eval Address Layout β) := by
  intro s hs
  exact .none

theorem bind {x : Eval Ident Unit α} {y : Eval Address Layout β}
    {f : α → Eval Ident Unit α'} {g : β → Eval Address Layout β'} (hx : InStep Q x y)
    (hf : ∀ a b, Q a b → InStep Q' (f a) (g b)) : InStep Q' (x >>= f) (y >>= g) := by
  intro s hs
  have h := hx s hs
  rw [outcome_bind, outcome_bind]
  generalize outcome x s = o, outcome y s.addressed = o' at h
  cases h with
  | none => exact .none
  | error he hbound hs' => exact .error he hbound hs'
  | ok hab hs' => exact hf _ _ hab _ hs'

theorem get : InStep (fun s t => s.WellScoped ∧ t = s.addressed)
    (get : Eval Ident Unit (Store Ident Unit)) get := by
  intro s hs
  exact .ok ⟨hs, rfl⟩ hs

theorem modify {f : Store Ident Unit → Store Ident Unit}
    {g : Store Address Layout → Store Address Layout} (hf : ∀ s, s.WellScoped → (f s).WellScoped)
    (hg : ∀ s : Store Ident Unit, g s.addressed = (f s).addressed) :
    InStep (fun _ _ => True) (modify f : Eval Ident Unit PUnit) (modify g) := by
  intro s hs
  rw [outcome_modify, outcome_modify, hg]
  exact .ok trivial (hf s hs)

theorem modifyGet {f : Store Ident Unit → α × Store Ident Unit}
    {g : Store Address Layout → β × Store Address Layout}
    (hf : ∀ s, s.WellScoped → (f s).2.WellScoped)
    (hg : ∀ s : Store Ident Unit, (g s.addressed).2 = (f s).2.addressed)
    (hQ : ∀ s : Store Ident Unit, Q (f s).1 (g s.addressed).1) :
    InStep Q (modifyGet f : Eval Ident Unit α) (modifyGet g) := by
  intro s hs
  rw [outcome_modifyGet, outcome_modifyGet, hg]
  exact .ok (hQ s) (hf s hs)

/-- Changing the stores afterwards keeps them in step, also after a failure. -/
theorem andThen {x : Eval Ident Unit α} {y : Eval Address Layout β}
    {f : Except EvalError α → Store Ident Unit → Store Ident Unit}
    {g : Except EvalError β → Store Address Layout → Store Address Layout} (hx : InStep Q x y)
    (hok : ∀ a b s, Q a b → s.WellScoped →
      (f (.ok a) s).WellScoped ∧ g (.ok b) s.addressed = (f (.ok a) s).addressed)
    (herror : ∀ e e' s, s.WellScoped →
      (f (.error e) s).WellScoped ∧ g (.error e') s.addressed = (f (.error e) s).addressed) :
    InStep Q (EvalOps.andThen x f) (EvalOps.andThen y g) := by
  intro s hs
  have h := hx s hs
  rw [Eval.outcome_andThen, Eval.outcome_andThen]
  generalize outcome x s = o, outcome y s.addressed = o' at h
  cases h with
  | none => exact .none
  | @error e e' s' he hbound hs' =>
    obtain ⟨hw, hg⟩ := herror e e' s' hs'
    simp only [Option.map_some, hg]
    exact .error he hbound hw
  | @ok a b s' hab hs' =>
    obtain ⟨hw, hg⟩ := hok a b s' hab hs'
    simp only [Option.map_some, hg]
    exact .ok hab hw

/-- A result that both sides compute the same way. -/
theorem ofExcept (r : Except EvalError α) (hbound : ∀ e, r = .error e → e.isUnbound = false) :
    InStep Eq (Eval.ofExcept r : Eval Ident Unit α) (Eval.ofExcept r) := by
  cases r with
  | ok a => exact .pure rfl
  | error e => exact .throw (.refl e) (hbound e rfl)

end InStep

end

/-! ## Messages and depth -/

namespace InStep

theorem shown (n : Nat) {v : Value Ident Unit} {w : Value Address Layout} (h : SameValue v w) :
    InStep Eq (Eval.shown n v) (Eval.shown n w) := by
  intro s hs
  rw [Eval.outcome_shown, Eval.outcome_shown, h.2, text_addressed]
  cases v.text s n with
  | none => exact .none
  | some t => exact .ok rfl hs

theorem mismatch {α β : Type} {Q : α → β → Prop} (n : Nat) (op : String) {v : Value Ident Unit}
    {w : Value Address Layout} (h : SameValue v w) :
    InStep Q (Eval.mismatch n op v) (Eval.mismatch n op w) := by
  refine bind (shown n h) ?_
  rintro t _ rfl
  exact .throw (.refl _) rfl

theorem nested {α β : Type} {Q : α → β → Prop} (m : Machine) {x : Eval Ident Unit α}
    {y : Eval Address Layout β} (hx : InStep Q x y) :
    InStep Q (Eval.nested m x) (Eval.nested m y) := by
  refine bind (Q := fun _ _ => True) ?_ (fun _ _ _ => ?_)
  · refine bind get ?_
    rintro s _ ⟨-, rfl⟩
    rw [Store.depth_addressed]
    dsimp only
    split
    · exact modify (fun s hs => hs.setDepth m _) (fun s => rfl)
    · exact .throw (.refl _) rfl
  · exact andThen hx (fun _ _ s _ hs => ⟨hs.setDepth m _, rfl⟩)
      (fun _ _ s hs => ⟨hs.setDepth m _, rfl⟩)

end InStep

end Mapling
