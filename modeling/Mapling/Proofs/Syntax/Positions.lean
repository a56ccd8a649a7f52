import Mapling.Span
import Mathlib.Order.Defs.LinearOrder
import Mathlib.Tactic

/-! # Positions in a text

Positions are ordered as a text is read, and the position of a byte is reached by reading what
stands before it (`Pos.afterAll`). The counters of a scan show these positions as long as they have
room (`Pos.Room`). A span delimits the bytes whose positions it covers (`Span.cut`). -/

namespace Mapling

namespace Pos

variable {p q r : Pos} {c : Char} {cs ds : List Char}

/-! ## Reading order -/

theorem le_iff : p ≤ q ↔ p.line < q.line ∨ p.line = q.line ∧ p.col ≤ q.col := by
  change p.precedes q = true ↔ _
  simp [precedes]

instance : LinearOrder Pos where
  le_refl p := by simp [le_iff]
  le_trans p q r := by
    simp only [le_iff]
    omega
  le_antisymm p q := by
    obtain ⟨l, k⟩ := p
    obtain ⟨l', k'⟩ := q
    simp only [le_iff, mk.injEq]
    omega
  le_total p q := by
    simp only [le_iff]
    omega
  toDecidableLE := inferInstance

theorem lt_iff : p < q ↔ p.line < q.line ∨ p.line = q.line ∧ p.col < q.col := by
  rw [lt_iff_not_ge, le_iff]
  omega

/-- The position after reading one byte, counted without a bound. -/
def after (p : Pos) (c : Char) : Pos :=
  if c = '\n' then ⟨p.line + 1, 1⟩ else ⟨p.line, p.col + 1⟩

theorem lt_after (p : Pos) (c : Char) : p < p.after c := by
  rw [lt_iff, after]
  split <;> simp

/-! ## The position after a text -/

/-- The position after reading a text from the position `p` on. -/
def afterAll (p : Pos) (cs : List Char) : Pos := cs.foldl after p

@[simp] theorem afterAll_nil (p : Pos) : p.afterAll [] = p := rfl

@[simp] theorem afterAll_cons (p : Pos) (c : Char) (cs : List Char) :
    p.afterAll (c :: cs) = (p.after c).afterAll cs := rfl

theorem afterAll_append (p : Pos) (cs ds : List Char) :
    p.afterAll (cs ++ ds) = (p.afterAll cs).afterAll ds :=
  List.foldl_append

theorem le_afterAll (p : Pos) (cs : List Char) : p ≤ p.afterAll cs := by
  induction cs generalizing p with
  | nil => exact le_refl p
  | cons c cs ih => exact (lt_after p c).le.trans (ih _)

theorem lt_afterAll (p : Pos) (h : cs ≠ []) : p < p.afterAll cs := by
  cases cs with
  | nil => exact absurd rfl h
  | cons c cs => exact (lt_after p c).trans_le (le_afterAll _ cs)

/-- Every byte of a text stands before what follows the text. -/
theorem afterAll_take_lt (p : Pos) {i : Nat} (hi : i < cs.length) :
    p.afterAll (cs.take i) < p.afterAll cs := by
  have hrest : cs.drop i ≠ [] := by
    intro hnil
    have hlength := congrArg List.length hnil
    rw [List.length_drop, List.length_nil] at hlength
    omega
  calc p.afterAll (cs.take i)
      < (p.afterAll (cs.take i)).afterAll (cs.drop i) := lt_afterAll _ hrest
    _ = p.afterAll cs := by rw [← afterAll_append, List.take_append_drop]

/-- A text without newlines stays on its line. -/
theorem afterAll_of_line (p : Pos) (h : '\n' ∉ cs) :
    p.afterAll cs = ⟨p.line, p.col + cs.length⟩ := by
  induction cs generalizing p with
  | nil => rfl
  | cons c cs ih =>
    rw [List.mem_cons, not_or] at h
    rw [afterAll_cons, ih _ h.2, after, if_neg (fun hc => h.1 hc.symm), List.length_cons]
    simp only [mk.injEq, true_and]
    omega

theorem afterAll_bounds (p : Pos) (hp : 1 ≤ p.col) (cs : List Char) :
    1 ≤ (p.afterAll cs).col ∧ (p.afterAll cs).line ≤ p.line + cs.length ∧
      (p.afterAll cs).col ≤ p.col + cs.length := by
  induction cs generalizing p with
  | nil => exact ⟨hp, by simp, by simp⟩
  | cons c cs ih =>
    have hstep : 1 ≤ (p.after c).col ∧ (p.after c).line ≤ p.line + 1 ∧
        (p.after c).col ≤ p.col + 1 := by
      unfold after
      split <;> simp
    obtain ⟨hcol, hline, hcol'⟩ := ih (p.after c) hstep.1
    rw [afterAll_cons, List.length_cons]
    omega

/-! ## Counters with room -/

/-- The counters have room for `n` more bytes, also if all of them are on one line. -/
structure Room (p : Pos) (n : Nat) : Prop where
  col_pos : 1 ≤ p.col
  line : p.line + n < positionBound
  col : p.col + n < positionBound

variable {n : Nat}

theorem Room.mono {m : Nat} (h : p.Room n) (hm : m ≤ n) : p.Room m :=
  ⟨h.col_pos, Nat.lt_of_le_of_lt (by omega) h.line, Nat.lt_of_le_of_lt (by omega) h.col⟩

theorem counted_eq_self {n : Nat} (h : n < positionBound) : counted n = n := Nat.mod_eq_of_lt h

/-- With room for a byte the counters show the position after it. -/
theorem Room.advance_eq (h : p.Room (n + 1)) (c : Char) :
    p.advance c = p.after c ∧ (p.after c).Room n := by
  obtain ⟨hpos, hline, hcol⟩ := h
  unfold advance after
  split
  · rw [counted_eq_self (by omega)]
    exact ⟨rfl, le_rfl, by simp only; omega, by simp only; omega⟩
  · rw [counted_eq_self (by omega)]
    exact ⟨rfl, Nat.le_add_left _ _, by simp only; omega, by simp only; omega⟩

theorem Room.afterAll (h : p.Room (cs.length + n)) : (p.afterAll cs).Room n := by
  induction cs generalizing p with
  | nil => exact h.mono (by omega)
  | cons c cs ih =>
    rw [List.length_cons, Nat.add_right_comm] at h
    exact ih (h.advance_eq c).2

end Pos

namespace Span

variable {s : Span} {p : Pos} {cs ds : List Char}

/-- The span on one line that starts at `p` and takes `extra` bytes after its first. -/
def onLine (p : Pos) (extra : Nat) : Span := ⟨p, ⟨p.line, p.col + extra⟩⟩

/-! ## What a span delimits -/

def Covers (s : Span) (p : Pos) : Prop := s.start ≤ p ∧ p ≤ s.stop

instance (s : Span) (p : Pos) : Decidable (s.Covers p) :=
  inferInstanceAs (Decidable (_ ∧ _))

/-- The bytes of a text, read from the position `p` on, that the span delimits. -/
def cut (s : Span) : Pos → List Char → List Char
  | _, [] => []
  | p, c :: cs => if s.Covers p then c :: cut s (p.after c) cs else cut s (p.after c) cs

theorem cut_append (s : Span) (p : Pos) (cs ds : List Char) :
    s.cut p (cs ++ ds) = s.cut p cs ++ s.cut (p.afterAll cs) ds := by
  induction cs generalizing p with
  | nil => rfl
  | cons c cs ih =>
    simp only [List.cons_append, cut, ih, Pos.afterAll_cons]
    split <;> rfl

/-- A span delimits nothing before it starts. -/
theorem cut_before (h : p.afterAll cs ≤ s.start) : s.cut p cs = [] := by
  induction cs generalizing p with
  | nil => rfl
  | cons c cs ih =>
    have hlt : p < s.start :=
      calc p < p.after c := Pos.lt_after p c
        _ ≤ p.afterAll (c :: cs) := Pos.le_afterAll _ cs
        _ ≤ s.start := h
    rw [cut, if_neg (fun hcovers => absurd hcovers.1 (not_le.mpr hlt))]
    exact ih h

/-- A span delimits nothing after it stops. -/
theorem cut_behind (h : s.stop < p) : s.cut p cs = [] := by
  induction cs generalizing p with
  | nil => rfl
  | cons c cs ih =>
    rw [cut, if_neg (fun hcovers => absurd hcovers.2 (not_le.mpr h))]
    exact ih (h.trans (Pos.lt_after p c))

/-- A span delimits the text all of whose bytes it covers. -/
theorem cut_covered (h : ∀ i < cs.length, s.Covers (p.afterAll (cs.take i))) : s.cut p cs = cs := by
  induction cs generalizing p with
  | nil => rfl
  | cons c cs ih =>
    have hfirst : s.Covers p := h 0 (Nat.succ_pos _)
    rw [cut, if_pos hfirst, ih]
    intro i hi
    exact h (i + 1) (Nat.succ_lt_succ hi)

end Span

end Mapling
