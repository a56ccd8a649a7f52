import Mapling.Proofs.Eval.Congruence

/-! # Eager evaluation writes every slot once

Under the eager policies nothing is ever put off: a slot is not initialised or it holds a value
(`Store.Eager`). A slot is filled by the form that declares it, before anything else can see it
filled, and never again. So whatever eager evaluation does, it leaves the slots alone that were
there before it started (`Store.Kept`); only the binding of a frame's expressions writes to existing
slots, and these are the slots of that frame. -/

namespace Mapling

variable {V L : Type}

structure Config.IsEager (c : Config) : Prop where
  binding : c.binding = .value
  cons : c.cons = .value

namespace Eval

variable (ev : Evaluator V L) {m : Machine} (env : Env)

/-- What is bound eagerly is evaluated at once. -/
theorem defer_value (m : Machine) (e : Expr V L) :
    defer ev m env .value e = (do return .ready (← ev m env e)) := by
  unfold defer
  split <;> rfl

theorem bindEach_cons (hm : m.config.IsEager) (b : Binding) (bs : List Binding) (e : Expr V L)
    (es : List (Expr V L)) :
    bindEach ev m env (b :: bs) (e :: es) = (do
      let v ← ev m env e
      modify (fun s => s.setSlot b.slot (.ready v))
      bindEach ev m env bs es) := by
  rw [bindEach, hm.binding, defer_value, bind_assoc]
  simp only [pure_bind]
  rfl

theorem cons_value (hm : m.config.IsEager) (n : Nat) (h t : Expr V L) :
    cons n ev m env h t = (do
      let v ← ev m env h
      let w ← ev m env t
      if w.isList then modifyGet (fun s => s.newPair (.ready v) (.ready w))
      else throw (.notAList Prim.cons.name (← shown n w))) := by
  rw [cons, hm.cons, defer_value, defer_value, bind_assoc]
  simp only [pure_bind, bind_assoc]
  rfl

end Eval

namespace Store

/-- Nothing is put off. -/
def Eager (s : Store V L) : Prop := ∀ i, s.slot i = .uninit ∨ ∃ v, s.slot i = .ready v

theorem Eager.ne_forcing {s : Store V L} (h : s.Eager) (i : Nat) : s.slot i ≠ .forcing := by
  rcases h i with hi | ⟨v, hi⟩ <;> rw [hi] <;> nofun

/-- The slots of `s` are as they were. -/
structure Kept (s s' : Store V L) : Prop where
  size : s.slots.size ≤ s'.slots.size
  slot : ∀ i < s.slots.size, s'.slot i = s.slot i

variable {s s' s'' : Store V L}

theorem Kept.refl (s : Store V L) : s.Kept s := ⟨le_rfl, fun _ _ => rfl⟩

theorem Kept.of_slots (h : s'.slots = s.slots) : s.Kept s' :=
  ⟨by rw [h], fun i _ => by simp only [Store.slot, h]⟩

theorem Kept.trans (h : s.Kept s') (h' : s'.Kept s'') : s.Kept s'' := by
  refine ⟨Nat.le_trans h.size h'.size, fun i hi => ?_⟩
  rw [h'.slot i (Nat.lt_of_lt_of_le hi h.size), h.slot i hi]

/-! ## Slots after each operation -/

theorem slot_eq_uninit {i : Nat} (h : s.slots.size ≤ i) : s.slot i = .uninit := by
  rw [slot, Array.getD_eq_getD_getElem?, Array.getElem?_eq_none h]
  rfl

theorem lt_size_of_slot {i : Nat} (h : s.slot i ≠ .uninit) : i < s.slots.size := by
  by_contra hge
  exact h (slot_eq_uninit (Nat.le_of_not_lt hge))

/-- A slot that holds a value is there. -/
theorem lt_size_of_ready {i : Nat} {v : Value V L} (h : s.slot i = .ready v) :
    i < s.slots.size :=
  lt_size_of_slot (by rw [h]; nofun)

theorem Kept.ready (h : s.Kept s') {i : Nat} {v : Value V L} (hi : s.slot i = .ready v) :
    s'.slot i = .ready v :=
  (h.slot i (lt_size_of_ready hi)).trans hi

theorem slot_setSlot (s : Store V L) (i j : Nat) (x : Slot V L) :
    (s.setSlot i x).slot j = if i = j ∧ i < s.slots.size then x else s.slot j := by
  simp only [slot, setSlot, Array.getD_eq_getD_getElem?, Array.getElem?_setIfInBounds]
  by_cases hij : i = j
  · subst hij
    by_cases hi : i < s.slots.size
    · simp [hi]
    · simp [hi]
  · simp [hij]

@[simp] theorem size_setSlot (s : Store V L) (i : Nat) (x : Slot V L) :
    (s.setSlot i x).slots.size = s.slots.size := by
  simp [setSlot]

/-- Slots that were not there may be filled. -/
theorem Kept.setSlot {i : Nat} (h : s.Kept s') (hi : s.slots.size ≤ i) (x : Slot V L) :
    s.Kept (s'.setSlot i x) := by
  refine ⟨by rw [size_setSlot]; exact h.size, fun k hk => ?_⟩
  rw [slot_setSlot, if_neg (by omega), h.slot k hk]

theorem slot_newPair (s : Store V L) (head tail : Slot V L) (i : Nat) :
    (s.newPair head tail).2.slot i =
      if i = s.slots.size then head else if i = s.slots.size + 1 then tail else s.slot i := by
  simp only [slot, newPair, Array.getD_eq_getD_getElem?, Array.getElem?_push, Array.size_push]
  by_cases h1 : i = s.slots.size
  · have : i ≠ s.slots.size + 1 := by omega
    simp [h1]
  · by_cases h2 : i = s.slots.size + 1
    · simp [h2]
    · simp [h1, h2]

theorem size_newPair (s : Store V L) (head tail : Slot V L) :
    (s.newPair head tail).2.slots.size = s.slots.size + 2 := by
  simp [newPair]

theorem kept_newPair (s : Store V L) (head tail : Slot V L) : s.Kept (s.newPair head tail).2 := by
  refine ⟨by rw [size_newPair]; omega, fun i hi => ?_⟩
  rw [slot_newPair, if_neg (by omega), if_neg (by omega)]

theorem slot_newFrame (s : Store V L) (names : List String) (i : Nat) :
    (s.newFrame names).2.slot i = s.slot i := by
  simp only [slot, newFrame, Array.getD_eq_getD_getElem?, Array.getElem?_append,
    Array.getElem?_replicate]
  split
  · rfl
  · rename_i h
    rw [Array.getElem?_eq_none (Nat.le_of_not_lt h)]
    split <;> rfl

theorem size_newFrame (s : Store V L) (names : List String) :
    (s.newFrame names).2.slots.size = s.slots.size + names.length := by
  simp [newFrame]

theorem kept_newFrame (s : Store V L) (names : List String) : s.Kept (s.newFrame names).2 :=
  ⟨by rw [size_newFrame]; omega, fun i _ => slot_newFrame s names i⟩

/-- The slots of a new frame are the next ones, in order. -/
theorem getElem?_newFrame (s : Store V L) (names : List String) (i : Nat) :
    (s.newFrame names).1[i]? = names[i]?.map (fun x => ⟨x, s.slots.size + i⟩) := by
  simp [newFrame]

theorem map_name_newFrame (s : Store V L) (names : List String) :
    (s.newFrame names).1.map Binding.name = names := by
  apply List.ext_getElem?
  intro i
  rw [List.getElem?_map, getElem?_newFrame]
  cases names[i]? <;> rfl

theorem map_slot_newFrame (s : Store V L) (names : List String) :
    (s.newFrame names).1.map Binding.slot = List.range' s.slots.size names.length := by
  apply List.ext_getElem
  · simp [newFrame]
  · intro i h1 h2
    simp [newFrame]

theorem size_le_slot_newFrame {names : List String} {b : Binding}
    (h : b ∈ (s.newFrame names).1) :
    s.slots.size ≤ b.slot ∧ b.slot < s.slots.size + names.length := by
  have hmem : b.slot ∈ (s.newFrame names).1.map Binding.slot := List.mem_map_of_mem h
  rw [map_slot_newFrame, List.mem_range'_1] at hmem
  exact hmem

/-- The slots of a new frame are different, and none is initialised. -/
theorem nodup_newFrame (s : Store V L) (names : List String) :
    ((s.newFrame names).1.map Binding.slot).Nodup := by
  rw [map_slot_newFrame]
  exact List.nodup_range'

theorem uninit_newFrame {names : List String} (b : Binding) (hb : b ∈ (s.newFrame names).1) :
    b.slot < (s.newFrame names).2.slots.size ∧ (s.newFrame names).2.slot b.slot = .uninit := by
  obtain ⟨hle, hlt⟩ := size_le_slot_newFrame hb
  rw [size_newFrame, slot_newFrame]
  exact ⟨hlt, slot_eq_uninit hle⟩

/-! ## Cells after each operation -/

theorem cell_newRef (s : Store V L) (v : Value V L) (i : Nat) :
    (s.newRef v).2.cell i = if i = s.cells.size then v else s.cell i := by
  simp only [cell, newRef, Array.getD_eq_getD_getElem?, Array.getElem?_push]
  split <;> rfl

theorem cell_setCell (s : Store V L) (i j : Nat) (v : Value V L) :
    (s.setCell i v).cell j = if i = j ∧ i < s.cells.size then v else s.cell j := by
  simp only [cell, setCell, Array.getD_eq_getD_getElem?, Array.getElem?_setIfInBounds]
  by_cases hij : i = j
  · subst hij
    by_cases hi : i < s.cells.size
    · simp [hi]
    · simp [hi]
  · simp [hij]

end Store

end Mapling
