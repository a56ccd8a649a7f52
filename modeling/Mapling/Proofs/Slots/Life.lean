import Mapling.Proofs.Eval.Eager
import Mapling.Proofs.Slots.Chronicle

/-! # The life of a slot

A slot is declared, or it is made together with the pair it is a part of. A declared slot is filled
once. From then on a value stays, and so does a suspension that is evaluated on every access; one
that is evaluated by need turns into a value when its evaluation succeeds, and is what it was before
when the evaluation fails (`Life`).

A chronicle tells how a store came about if it gives every slot a life that ends in the state the
slot is in (`Chronicle.Tells`). -/

namespace Mapling

variable {V L : Type}

/-! ## Lives -/

/-- How far a slot is in its life. A slot that is being evaluated remembers its suspension. -/
inductive Phase (V L : Type) where
  | declared
  | ready (v : Value V L)
  | byName (x : Suspension V L)
  | byNeed (x : Suspension V L)
  | forcing (x : Suspension V L)

namespace Phase

def slot : Phase V L → Slot V L
  | declared => .uninit
  | ready v => .ready v
  | byName x => .byName x
  | byNeed x => .byNeed x
  | forcing _ => .forcing

def isFilled : Phase V L → Bool
  | ready _ | byName _ | byNeed _ => true
  | declared | forcing _ => false

end Phase

/-- The phase a slot is in after a history, which gives the latest first. -/
inductive Life : Phase V L → List (Moment V L) → Prop
  | declared : Life .declared [.state .uninit]
  /-- A part of a pair is filled from the start. -/
  | made {p : Phase V L} (hp : p.isFilled = true) : Life p [.state p.slot]
  | filled {p : Phase V L} {past : List (Moment V L)} (h : Life .declared past)
      (hp : p.isFilled = true) : Life p (.state p.slot :: past)
  | forced {x : Suspension V L} {past : List (Moment V L)} (h : Life (.byNeed x) past) :
      Life (.forcing x) (.state .forcing :: past)
  | succeeded {x : Suspension V L} {past : List (Moment V L)} (v : Value V L)
      (h : Life (.forcing x) past) :
      Life (.ready v) (.state (.ready v) :: .result (.ok v) :: past)
  | failed {x : Suspension V L} {past : List (Moment V L)} (e : EvalError)
      (h : Life (.forcing x) past) :
      Life (.byNeed x) (.state (.byNeed x) :: .result (.error e) :: past)
  | gave {v : Value V L} {past : List (Moment V L)} (h : Life (.ready v) past) :
      Life (.ready v) (.access v :: past)
  /-- What is evaluated on every access may give another value each time. -/
  | gaveByName {x : Suspension V L} {past : List (Moment V L)} (v : Value V L)
      (h : Life (.byName x) past) : Life (.byName x) (.access v :: past)

def Moment.success? : Moment V L → Option (Value V L)
  | .result (.ok v) => some v
  | _ => none

/-- If the earlier moment is the success of an evaluation by need and the later one an access, the
access gives the value that was found. -/
def Moment.Repeats (later earlier : Moment V L) : Prop :=
  ∀ v w, earlier = .result (.ok v) → later = .access w → w = v

theorem Moment.state_repeats (x : Slot V L) (earlier : Moment V L) :
    Repeats (.state x) earlier := by
  rintro _ _ _ ⟨⟩

theorem Moment.result_repeats (r : Except EvalError (Value V L)) (earlier : Moment V L) :
    Repeats (.result r) earlier := by
  rintro _ _ _ ⟨⟩

namespace Life

variable {p : Phase V L} {past : List (Moment V L)}

theorem settled {x : Suspension V L} (h : Life (.forcing x) past)
    (r : Except EvalError (Value V L)) :
    ∃ p : Phase V L, Life p (.state (Eval.settled x r) :: .result r :: past) ∧
      Eval.settled x r = p.slot := by
  cases r with
  | ok v => exact ⟨_, .succeeded v h, rfl⟩
  | error e => exact ⟨_, .failed e h, rfl⟩

/-- An evaluation by need succeeds at most once, and then the slot holds its value for good. -/
theorem successes (h : Life p past) :
    past.filterMap Moment.success? = [] ∨
      ∃ v, past.filterMap Moment.success? = [v] ∧ p = .ready v := by
  induction h with
  | declared | made => exact .inl rfl
  | filled _ _ ih | forced _ ih | failed _ _ ih =>
    -- in these phases no value has been found yet
    rcases ih with ih | ⟨v, -, hp⟩
    · exact .inl ih
    · cases hp
  | succeeded v _ ih =>
    rcases ih with ih | ⟨v, -, hp⟩
    · refine .inr ⟨v, ?_, rfl⟩
      show v :: List.filterMap Moment.success? _ = [v]
      rw [ih]
    · cases hp
  | gave _ ih => exact ih
  | gaveByName _ _ ih => exact ih

/-- After an evaluation by need has succeeded, every access gives its value. -/
theorem repeats (h : Life p past) : past.Pairwise Moment.Repeats := by
  induction h with
  | declared | made => exact List.pairwise_singleton _ _
  | filled _ _ ih | forced _ ih => exact ih.cons (fun _ _ => Moment.state_repeats _ _)
  | succeeded _ _ ih | failed _ _ ih =>
    exact (ih.cons (fun _ _ => Moment.result_repeats _ _)).cons
      (fun _ _ => Moment.state_repeats _ _)
  | gave h ih =>
    refine ih.cons (fun y hy v w hv hw => ?_)
    cases hw
    have hmem : v ∈ List.filterMap Moment.success? _ := List.mem_filterMap.mpr ⟨y, hy, hv ▸ rfl⟩
    rcases h.successes with hnone | ⟨u, hone, hp⟩
    · rw [hnone] at hmem
      cases hmem
    · cases hp
      rw [hone, List.mem_singleton] at hmem
      exact hmem.symm
  | gaveByName _ h ih =>
    refine ih.cons (fun y hy v w hv _ => ?_)
    have hmem : v ∈ List.filterMap Moment.success? _ := List.mem_filterMap.mpr ⟨y, hy, hv ▸ rfl⟩
    rcases h.successes with hnone | ⟨u, -, hp⟩
    · rw [hnone] at hmem
      cases hmem
    · cases hp

end Life

/-! ## Histories -/

namespace Chronicle

variable {c : Chronicle V L}

@[simp] theorem history_nil (i : Nat) : history ([] : Chronicle V L) i = [] := rfl

theorem history_cons (j : Nat) (x : Moment V L) (c : Chronicle V L) (i : Nat) :
    history ((j, x) :: c) i = if j = i then x :: history c i else history c i := by
  unfold history
  by_cases h : j = i
  · simp [h]
  · simp [h]

@[simp] theorem history_cons_self (i : Nat) (x : Moment V L) (c : Chronicle V L) :
    history ((i, x) :: c) i = x :: history c i := by
  rw [history_cons, if_pos rfl]

theorem history_cons_of_ne {i j : Nat} (h : j ≠ i) (x : Moment V L) (c : Chronicle V L) :
    history ((j, x) :: c) i = history c i := by
  rw [history_cons, if_neg h]

/-- The chronicle says of every slot how it came to be in the state it is in. -/
structure Tells (c : Chronicle V L) (s : Store V L) : Prop where
  life : ∀ i < s.slots.size, ∃ p, Life p (c.history i) ∧ s.slot i = p.slot
  unborn : ∀ i, s.slots.size ≤ i → c.history i = []

variable {s : Store V L} {i : Nat}

theorem Tells.of_slots {s' : Store V L} (hc : c.Tells s) (h : s'.slots = s.slots) :
    c.Tells s' := by
  have hslot : ∀ i, s'.slot i = s.slot i := fun i => by rw [Store.slot, h, ← Store.slot]
  refine ⟨fun i hi => ?_, fun i hi => hc.unborn i (h ▸ hi)⟩
  rw [hslot]
  exact hc.life i (h ▸ hi)

/-- Unless a slot is being evaluated, its state is its phase. -/
theorem Tells.life_of_slot (hc : c.Tells s) (hi : i < s.slots.size) {p : Phase V L}
    (hp : ∀ x, p ≠ .forcing x) (h : s.slot i = p.slot) : Life p (c.history i) := by
  obtain ⟨q, hq, hslot⟩ := hc.life i hi
  rw [h] at hslot
  cases p with
  | forcing x => exact absurd rfl (hp x)
  | _ =>
    cases q <;> cases hslot
    exact hq

def about (i : Nat) (news : List (Moment V L)) : Chronicle V L := news.map (fun x => (i, x))

theorem history_about (i : Nat) (news : List (Moment V L)) (c : Chronicle V L) (j : Nat) :
    history (about i news ++ c) j = if i = j then news ++ c.history j else c.history j := by
  induction news with
  | nil => simp [about]
  | cons x news ih =>
    show history ((i, x) :: (about i news ++ c)) j = _
    rw [history_cons, ih]
    split <;> rfl

/-- Putting a slot in the state that is due and writing this down. -/
theorem Tells.setSlot (hc : c.Tells s) (hi : i < s.slots.size) (news : List (Moment V L))
    {p : Phase V L} (h : Life p (news ++ c.history i)) :
    Tells (about i news ++ c) (s.setSlot i p.slot) := by
  refine ⟨fun j hj => ?_, fun j hj => ?_⟩
  · rw [Store.size_setSlot] at hj
    rw [history_about, Store.slot_setSlot]
    by_cases hij : i = j
    · subst hij
      rw [if_pos rfl, if_pos ⟨rfl, hi⟩]
      exact ⟨p, h, rfl⟩
    · rw [if_neg hij, if_neg (fun h => hij h.1)]
      exact hc.life j hj
  · rw [Store.size_setSlot] at hj
    rw [history_about, if_neg (by omega)]
    exact hc.unborn j hj

/-- An access changes nothing. -/
theorem Tells.access (hc : c.Tells s) (hi : i < s.slots.size) {v : Value V L}
    (h : s.slot i = .ready v ∨ ∃ x, s.slot i = .byName x) : Tells ((i, .access v) :: c) s := by
  have hlife : ∃ p, Life p (.access v :: c.history i) ∧ s.slot i = p.slot := by
    rcases h with h | ⟨x, h⟩
    · exact ⟨.ready v, .gave (hc.life_of_slot hi (by simp) h), h⟩
    · exact ⟨.byName x, .gaveByName v (hc.life_of_slot hi (by simp) h), h⟩
  refine ⟨fun j hj => ?_, fun j hj => ?_⟩
  · by_cases hij : i = j
    · subst hij
      rw [history_cons_self]
      exact hlife
    · rw [history_cons_of_ne hij]
      exact hc.life j hj
  · rw [history_cons_of_ne (by omega)]
    exact hc.unborn j hj

/-- The parts of a new pair start their lives filled. -/
theorem Tells.newPair (hc : c.Tells s) {head tail : Phase V L} (hhead : head.isFilled = true)
    (htail : tail.isFilled = true) :
    Tells ((s.slots.size + 1, .state tail.slot) :: (s.slots.size, .state head.slot) :: c)
      (s.newPair head.slot tail.slot).2 := by
  refine ⟨fun j hj => ?_, fun j hj => ?_⟩
  · rw [Store.size_newPair] at hj
    rw [Store.slot_newPair]
    by_cases h1 : j = s.slots.size
    · subst h1
      rw [if_pos rfl, history_cons_of_ne (by omega), history_cons_self, hc.unborn _ le_rfl]
      exact ⟨head, .made hhead, rfl⟩
    · by_cases h2 : j = s.slots.size + 1
      · subst h2
        rw [if_neg h1, if_pos rfl, history_cons_self, history_cons_of_ne (by omega),
          hc.unborn _ (by omega)]
        exact ⟨tail, .made htail, rfl⟩
      · rw [if_neg h1, if_neg h2, history_cons_of_ne (by omega), history_cons_of_ne (by omega)]
        exact hc.life j (by omega)
  · rw [Store.size_newPair] at hj
    rw [history_cons_of_ne (by omega), history_cons_of_ne (by omega)]
    exact hc.unborn j (by omega)

def ofFrame (frame : Frame) : Chronicle V L := frame.map (fun b => (b.slot, .state .uninit))

theorem history_ofFrame (frame : Frame) (c : Chronicle V L) (i : Nat)
    (h : (frame.map Binding.slot).Nodup) :
    history (ofFrame frame ++ c) i =
      if i ∈ frame.map Binding.slot then .state .uninit :: c.history i else c.history i := by
  induction frame with
  | nil => simp [ofFrame]
  | cons b frame ih =>
    rw [List.map_cons, List.nodup_cons] at h
    show history ((b.slot, .state .uninit) :: (ofFrame frame ++ c)) i = _
    rw [history_cons, ih h.2]
    by_cases hb : b.slot = i
    · subst hb
      rw [if_pos rfl, if_neg h.1, if_pos (by simp)]
    · rw [if_neg hb]
      simp [Ne.symm hb]

theorem history_newFrame (s : Store V L) (c : Chronicle V L) (names : List String) (i : Nat) :
    history (ofFrame (s.newFrame names).1 ++ c) i =
      if s.slots.size ≤ i ∧ i < s.slots.size + names.length then .state .uninit :: c.history i
      else c.history i := by
  rw [history_ofFrame _ _ _ (Store.nodup_newFrame _ _)]
  simp only [Store.map_slot_newFrame, List.mem_range'_1]

theorem Tells.newFrame (hc : c.Tells s) (names : List String) :
    Tells (ofFrame (s.newFrame names).1 ++ c) (s.newFrame names).2 := by
  refine ⟨fun j hj => ?_, fun j hj => ?_⟩
  · rw [Store.size_newFrame] at hj
    rw [history_newFrame, Store.slot_newFrame]
    by_cases h : j < s.slots.size
    · rw [if_neg (by omega)]
      exact hc.life j h
    · rw [if_pos (by omega), hc.unborn j (by omega), Store.slot_eq_uninit (by omega)]
      exact ⟨_, .declared, rfl⟩
  · rw [Store.size_newFrame] at hj
    rw [history_newFrame, if_neg (by omega)]
    exact hc.unborn j (by omega)

end Chronicle

end Mapling
