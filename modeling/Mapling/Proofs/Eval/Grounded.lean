import Mapling.Proofs.Eval.Residue
import Mathlib

/-! # Values that rest on firm ground

A value is grounded if the way down its parts ends everywhere (`Grounded`). Writing the text of a
grounded value ends, since that is all it does: to go down the value. The text is part of many
messages, so whether a run ends may hang on it.

A value is made from values that are there already, so it does not contain itself, with two
exceptions. An assignment may put a value in a reference that is a part of it, and a part of a pair
that was put off may come to be anything. Without assignments and with eager pairs, everything in
a store is grounded (`Store.Sound`), and what a grounded value rests on does not change any more
(`Store.Grows`). Bindings may be put off. -/

namespace Mapling

variable {V L : Type}

/-! ## Expressions without assignments -/

namespace Expr

mutual

/-- The expression assigns nothing, and neither does a function in it. -/
def isAssignFree : Expr V L → Bool
  | .int _ _ | .bool _ _ | .null _ | .var _ _ | .prim _ _ => true
  | .unary _ _ e => e.isAssignFree
  | .binary _ op l r => op != .assign && l.isAssignFree && r.isAssignFree
  | .app _ f args => f.isAssignFree && allAssignFree args
  | .map _ _ _ body => body.isAssignFree
  | .cond _ t a b => t.isAssignFree && a.isAssignFree && b.isAssignFree
  | .letIn _ _ defs _ body => defsAssignFree defs && body.isAssignFree
  | .block _ es => allAssignFree es

def allAssignFree : List (Expr V L) → Bool
  | [] => true
  | e :: es => e.isAssignFree && allAssignFree es

def defsAssignFree : List (Ident × Expr V L) → Bool
  | [] => true
  | d :: ds => defAssignFree d && defsAssignFree ds

def defAssignFree : Ident × Expr V L → Bool
  | (_, e) => e.isAssignFree

end

theorem allAssignFree_iff {es : List (Expr V L)} :
    allAssignFree es = true ↔ ∀ e ∈ es, e.isAssignFree = true := by
  induction es with
  | nil => simp [allAssignFree]
  | cons e es ih => simp [allAssignFree, ih]

theorem defsAssignFree_iff {defs : List (Ident × Expr V L)} :
    defsAssignFree defs = true ↔ ∀ d ∈ defs, d.2.isAssignFree = true := by
  induction defs with
  | nil => simp [defsAssignFree]
  | cons d ds ih =>
    obtain ⟨x, e⟩ := d
    simp [defsAssignFree, defAssignFree, ih]

end Expr

/-! ## Grounded values -/

/-- The parts of the value are values, which are grounded in their turn. A function in it assigns
nothing. -/
inductive Grounded (s : Store V L) : Value V L → Prop
  | int (k : Int) : Grounded s (.int k)
  | bool (b : Bool) : Grounded s (.bool b)
  | null : Grounded s .null
  | unit : Grounded s .unit
  | prim (p : Prim) : Grounded s (.prim p)
  | closure (id : Nat) {c : Closure V L} (hbody : c.body.isAssignFree = true) :
      Grounded s (.closure id c)
  | ref {i : Nat} (hi : i < s.cells.size) (hv : Grounded s (s.cell i)) : Grounded s (.ref i)
  | pair {h t : Nat} {v w : Value V L} (hh : s.slot h = .ready v) (ht : s.slot t = .ready w)
      (hv : Grounded s v) (hw : Grounded s w) : Grounded s (.pair h t)

/-- What a value rests on in the one store is the same in the other. -/
structure Store.Bears (s s' : Store V L) : Prop where
  ready : ∀ i v, s.slot i = .ready v → s'.slot i = .ready v
  cells : ∀ i < s.cells.size, i < s'.cells.size ∧ s'.cell i = s.cell i

variable {s : Store V L}

theorem Grounded.mono {s' : Store V L} (h : s.Bears s') {v : Value V L} (hv : Grounded s v) :
    Grounded s' v := by
  induction hv with
  | int k => exact .int k
  | bool b => exact .bool b
  | null => exact .null
  | unit => exact .unit
  | prim p => exact .prim p
  | closure id hbody => exact .closure id hbody
  | ref hi hv ih =>
    obtain ⟨hi', hcell⟩ := h.cells _ hi
    exact .ref hi' (hcell ▸ ih)
  | pair hh ht hv hw ihv ihw => exact .pair (h.ready _ _ hh) (h.ready _ _ ht) ihv ihw

/-- A grounded value has a text, and so has the list of its items if it is a pair. -/
theorem Grounded.text {v : Value V L} (hv : Grounded s v) :
    (∃ t, Ends (fun n => v.text s n) t) ∧
      ∀ h t, v = .pair h t → ∃ items, Ends (fun n => Value.itemsText s n h t) items := by
  have hplain : ∀ v : Value V L, (∀ n, v.text s (n + 1) = some v.plainText) →
      ∃ t, Ends (fun n => v.text s n) t :=
    fun v h => ⟨v.plainText, Ends.succ ⟨0, fun n _ => h n⟩⟩
  induction hv with
  | int k => exact ⟨hplain _ (fun n => rfl), fun h t heq => by cases heq⟩
  | bool b => exact ⟨hplain _ (fun n => rfl), fun h t heq => by cases heq⟩
  | null | unit | prim | closure => exact ⟨hplain _ (fun n => rfl), fun h t heq => by cases heq⟩
  | ref hi hv ih =>
    obtain ⟨⟨t, N, hN⟩, -⟩ := ih
    refine ⟨⟨"(ref " ++ t ++ ")", Ends.succ ⟨N, fun n hn => ?_⟩⟩, fun h t heq => by cases heq⟩
    have htext := hN n hn
    dsimp only at htext
    simp [Value.text, htext]
  | @pair h t v w hh ht hv hw ihv ihw =>
    obtain ⟨⟨head, N, hN⟩, -⟩ := ihv
    obtain ⟨⟨last, N', hN'⟩, hitems⟩ := ihw
    have hrest : ∃ items, Ends (fun n => Value.itemsText s n h t) items := by
      cases w with
      | pair h' t' =>
        obtain ⟨rest, M, hM⟩ := hitems h' t' rfl
        refine ⟨head ++ " " ++ rest, Ends.succ ⟨max N M, fun n hn => ?_⟩⟩
        have hhead := hN n (by omega)
        have htail := hM n (by omega)
        dsimp only at hhead htail
        simp [Value.itemsText, hh, ht, Slot.value?, hhead, htail]
      | null =>
        refine ⟨head, Ends.succ ⟨N, fun n hn => ?_⟩⟩
        have hhead := hN n hn
        dsimp only at hhead
        simp [Value.itemsText, hh, ht, Slot.value?, hhead]
      | _ =>
        refine ⟨head ++ " . " ++ last, Ends.succ ⟨max N N', fun n hn => ?_⟩⟩
        have hhead := hN n (by omega)
        have htail := hN' n (by omega)
        dsimp only at hhead htail
        simp [Value.itemsText, hh, ht, Slot.value?, hhead, htail]
    refine ⟨?_, fun h' t' heq => by cases heq; exact hrest⟩
    obtain ⟨items, M, hM⟩ := hrest
    refine ⟨"(" ++ items ++ ")", Ends.succ ⟨M, fun n hn => ?_⟩⟩
    have hitems := hM n hn
    dsimp only at hitems
    simp [Value.text, hitems]

/-! ## Stores -/

/-- What a slot holds is grounded, or it is an expression without assignments that the machine
has put off. -/
def Slot.Sound (m : Machine) (s : Store V L) : Slot V L → Prop
  | .ready v => Grounded s v
  | .byName x | .byNeed x => x.machine = m ∧ x.expr.isAssignFree = true
  | .uninit | .forcing => True

theorem Slot.Sound.mono {m : Machine} {s' : Store V L} (h : s.Bears s') {x : Slot V L}
    (hx : x.Sound m s) : x.Sound m s' := by
  cases x with
  | ready v => exact Grounded.mono h hx
  | _ => exact hx

namespace Store

structure Sound (m : Machine) (s : Store V L) : Prop where
  counter : m.counter < s.depths.size
  slots : ∀ i, (s.slot i).Sound m s

/-- From `s` to `s'` the machines are where they were, cells have been added, and slots have been
added or, where something was put off by need, changed. -/
structure Grows (s s' : Store V L) : Prop where
  depths : s'.depths = s.depths
  size : s.slots.size ≤ s'.slots.size
  slots : ∀ i < s.slots.size, s'.slot i = s.slot i ∨ ∃ x, s.slot i = .byNeed x
  cells : ∀ i < s.cells.size, i < s'.cells.size ∧ s'.cell i = s.cell i

variable {i : Nat}

namespace Grows

variable {s s' s'' : Store V L}

theorem refl (s : Store V L) : s.Grows s :=
  ⟨rfl, le_rfl, fun _ _ => .inl rfl, fun _ hi => ⟨hi, rfl⟩⟩

theorem trans (h : s.Grows s') (h' : s'.Grows s'') : s.Grows s'' := by
  refine ⟨h'.depths.trans h.depths, h.size.trans h'.size, fun i hi => ?_, fun i hi => ?_⟩
  · rcases h.slots i hi with heq | hput
    · rcases h'.slots i (hi.trans_le h.size) with heq' | ⟨x, hx⟩
      · exact .inl (heq'.trans heq)
      · exact .inr ⟨x, heq ▸ hx⟩
    · exact .inr hput
  · obtain ⟨hi', heq⟩ := h.cells i hi
    obtain ⟨hi'', heq'⟩ := h'.cells i hi'
    exact ⟨hi'', heq'.trans heq⟩

theorem bears (h : s.Grows s') : s.Bears s' := by
  refine ⟨fun i v hv => ?_, h.cells⟩
  have hi : i < s.slots.size := lt_size_of_slot (by rw [hv]; rintro ⟨⟩)
  rcases h.slots i hi with heq | ⟨x, hx⟩
  · exact heq.trans hv
  · rw [hv] at hx
    cases hx

theorem depth (h : s.Grows s') (m : Machine) : s'.depth m = s.depth m := by
  rw [Store.depth, h.depths, Store.depth]

/-- Where slots have only been added. -/
theorem of_slots (hdepths : s'.depths = s.depths) (hsize : s.slots.size ≤ s'.slots.size)
    (hslots : ∀ i < s.slots.size, s'.slot i = s.slot i) (hcells : s'.cells = s.cells) :
    s.Grows s' := by
  refine ⟨hdepths, hsize, fun i hi => .inl (hslots i hi), fun i hi => ?_⟩
  rw [Store.cell, Store.cell, hcells]
  exact ⟨hi, rfl⟩

end Grows

variable {m : Machine} {s s' : Store V L}

/-- A slot that holds no value may be put in any sound state. -/
theorem Bears.setSlot (hi : ∀ v, s.slot i ≠ .ready v) (x : Slot V L) : s.Bears (s.setSlot i x) := by
  refine ⟨fun j v hv => ?_, fun j hj => ⟨hj, rfl⟩⟩
  rw [slot_setSlot, if_neg]
  · exact hv
  · rintro ⟨rfl, -⟩
    exact hi v hv

theorem Sound.setSlot (hs : s.Sound m) (hi : ∀ v, s.slot i ≠ .ready v) {x : Slot V L}
    (hx : x.Sound m s) : (s.setSlot i x).Sound m := by
  refine ⟨hs.counter, fun j => Slot.Sound.mono (.setSlot hi x) ?_⟩
  rw [slot_setSlot]
  split
  · exact hx
  · exact hs.slots j

theorem Sound.newFrame (hs : s.Sound m) (names : List String) :
    (s.newFrame names).2.Sound m ∧ s.Grows (s.newFrame names).2 := by
  have hgrows : s.Grows (s.newFrame names).2 := by
    refine .of_slots rfl ?_ (fun i _ => slot_newFrame s names i) rfl
    rw [size_newFrame]
    omega
  refine ⟨⟨hs.counter, fun i => ?_⟩, hgrows⟩
  rw [slot_newFrame]
  exact (hs.slots i).mono hgrows.bears

theorem Sound.newClosure (hs : s.Sound m) (c : Closure V L) :
    (s.newClosure c).2.Sound m ∧ s.Grows (s.newClosure c).2 := by
  have hgrows : s.Grows (s.newClosure c).2 :=
    .of_slots rfl le_rfl (fun _ _ => rfl) rfl
  exact ⟨⟨hs.counter, fun i => (hs.slots i).mono hgrows.bears⟩, hgrows⟩

theorem Sound.newRef (hs : s.Sound m) {v : Value V L} (hv : Grounded s v) :
    (s.newRef v).2.Sound m ∧ s.Grows (s.newRef v).2 ∧
      Grounded (s.newRef v).2 (s.newRef v).1 := by
  have hsize : (s.newRef v).2.cells.size = s.cells.size + 1 := Array.size_push _
  have hgrows : s.Grows (s.newRef v).2 := by
    refine ⟨rfl, le_rfl, fun _ _ => .inl rfl, fun i hi => ⟨by omega, ?_⟩⟩
    rw [cell_newRef, if_neg (by omega)]
  refine ⟨⟨hs.counter, fun i => (hs.slots i).mono hgrows.bears⟩, hgrows, .ref (by omega) ?_⟩
  rw [cell_newRef, if_pos rfl]
  exact hv.mono hgrows.bears

/-- A pair of grounded values is grounded. -/
theorem Sound.newPair (hs : s.Sound m) {v w : Value V L} (hv : Grounded s v) (hw : Grounded s w) :
    (s.newPair (.ready v) (.ready w)).2.Sound m ∧ s.Grows (s.newPair (.ready v) (.ready w)).2 ∧
      Grounded (s.newPair (.ready v) (.ready w)).2 (s.newPair (.ready v) (.ready w)).1 := by
  have hgrows : s.Grows (s.newPair (.ready v) (.ready w)).2 := by
    refine .of_slots rfl ?_ (fun i hi => ?_) rfl
    · rw [size_newPair]
      omega
    · rw [slot_newPair, if_neg (by omega), if_neg (by omega)]
  refine ⟨⟨hs.counter, fun i => ?_⟩, hgrows,
    .pair (v := v) (w := w) ?_ ?_ (hv.mono hgrows.bears) (hw.mono hgrows.bears)⟩
  · refine Slot.Sound.mono hgrows.bears ?_
    rw [slot_newPair]
    split
    · exact hv
    · split
      · exact hw
      · exact hs.slots i
  · rw [slot_newPair, if_pos rfl]
  · rw [slot_newPair, if_neg (by omega), if_pos rfl]

/-- How deep the machine is says nothing about values. -/
theorem Bears.setDepth (s : Store V L) (m : Machine) (d : Nat) : s.Bears (s.setDepth m d) :=
  ⟨fun _ _ hv => hv, fun _ hi => ⟨hi, rfl⟩⟩

theorem Sound.setDepth (hs : s.Sound m) (d : Nat) : (s.setDepth m d).Sound m := by
  refine ⟨?_, fun i => (hs.slots i).mono (.setDepth s m d)⟩
  change m.counter < (s.depths.setIfInBounds m.counter d).size
  rw [Array.size_setIfInBounds]
  exact hs.counter

theorem Sound.depth_setDepth (hs : s.Sound m) (d : Nat) : (s.setDepth m d).depth m = d := by
  have hcounter := hs.counter
  simp [depth, Store.setDepth, Array.getD_eq_getD_getElem?, hcounter]

end Store

end Mapling
