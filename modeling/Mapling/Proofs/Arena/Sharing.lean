import Mapling.Proofs.Arena.History
import Mapling.Proofs.Arena.Keeping
import Mapling.Proofs.Arena.Regions
import Mathlib

/-! # Programs that share an arena

Programs run one after the other in one arena do not disturb each other. A program never writes
to a word that was there before: it starts with no environment, so it can reach only cells that it
made itself. In the terms of the layout, the words that are there when it starts stand before its
heap, and a heap only changes its own cells (`Reached.words_prefix`). With what is recorded beside
the words it is the same (`Run.InOrder.program`).

Decoding an address reads only what was there when the address was made. So it gives the same
value in the same store as before, and the value is of the same kind and has the same text
(`Arena.Keeps.decode`). The converse does not hold: an address that was past the end may be
that of a cell later. -/

namespace Mapling

/-- The arena `a'` has everything that `a` has, and no other names for the activations of `a`. -/
structure Arena.Keeps (a a' : Arena) : Prop where
  words : a.words.toList <+: a'.words.toList
  functions : ∀ (k : Nat) f, a.code.functions[k]? = some f → a'.code.functions[k]? = some f
  names : ∀ (k : Nat) xs, a.code.names[k]? = some xs → a'.code.names[k]? = some xs
  frameNames : ∀ p < a.words.size, a'.code.frameNames? p = a.code.frameNames? p

/-! ## Reading -/

/-- What `x` gives, `y` gives as well. -/
def Confirms {α : Type} (x y : Except ArenaError α) : Prop := ∀ v, x = .ok v → y = .ok v

namespace Confirms

variable {α β : Type} {x y : Except ArenaError α}

theorem refl (x : Except ArenaError α) : Confirms x x := fun _ h => h

theorem of_error (e : ArenaError) (y : Except ArenaError α) : Confirms (.error e) y :=
  fun _ h => by cases h

/-- What comes next may use what was read. -/
theorem bind_of_eq {f g : α → Except ArenaError β} (hx : Confirms x y)
    (hf : ∀ v, x = .ok v → Confirms (f v) (g v)) : Confirms (x >>= f) (y >>= g) := by
  intro b hb
  cases hxv : x with
  | error e =>
    rw [hxv] at hb
    cases hb
  | ok v =>
    rw [hxv] at hb
    rw [hx v hxv]
    exact hf v hxv b hb

theorem bind {f g : α → Except ArenaError β} (hx : Confirms x y)
    (hf : ∀ v, Confirms (f v) (g v)) : Confirms (x >>= f) (y >>= g) :=
  hx.bind_of_eq (fun v _ => hf v)

end Confirms

namespace Arena.Keeps

variable {a a' : Arena} (h : a.Keeps a')

include h

theorem used_le : a.used ≤ a'.used := by
  have hlength := h.words.length_le
  rwa [Array.length_toList, Array.length_toList] at hlength

theorem getElem?_eq {i : Nat} (hi : i < a.used) : a'.words[i]? = a.words[i]? := by
  obtain ⟨rest, hrest⟩ := h.words
  rw [← Array.getElem?_toList, ← Array.getElem?_toList, ← hrest]
  exact List.getElem?_append_left (by rwa [Array.length_toList])

theorem word (i : Nat) : Confirms (a.word i) (a'.word i) := by
  intro w hw
  unfold Arena.word at hw ⊢
  cases hi : a.words[i]? with
  | none =>
    rw [hi] at hw
    cases hw
  | some w' =>
    rw [h.getElem?_eq (Array.getElem?_eq_some_iff.mp hi).1]
    exact hw

theorem cellSize (addr : Nat) (w : Int) : Confirms (a.cellSize addr w) (a'.cellSize addr w) := by
  unfold Arena.cellSize
  split
  · exact .refl _
  · split
    · exact .refl _
    · exact .bind (h.word _) (fun _ => .refl _)

theorem cellEnd (addr : Nat) : Confirms (a.cellEnd addr) (a'.cellEnd addr) := by
  refine .bind (h.word addr) (fun w => .bind (h.cellSize addr w) (fun size => ?_))
  have hused := h.used_le
  by_cases hstop : addr + size ≤ a.used
  · rw [if_pos hstop, if_pos (hstop.trans hused)]
    exact .refl _
  · rw [if_neg hstop]
    exact .of_error _ _

theorem field (addr i : Nat) : Confirms (a.field addr i) (a'.field addr i) := by
  refine .bind (h.cellEnd addr) (fun stop => ?_)
  split
  · exact .bind (h.word addr) (fun _ => .refl _)
  · exact h.word _

theorem fieldAddr (addr i : Nat) : Confirms (a.fieldAddr addr i) (a'.fieldAddr addr i) :=
  .bind (h.field addr i) (fun _ => .refl _)

theorem fieldLink (addr i : Nat) : Confirms (a.fieldLink addr i) (a'.fieldLink addr i) :=
  .bind (h.field addr i) (fun _ => .refl _)

theorem activationEnd (frame : Nat) :
    Confirms (a.activationEnd frame) (a'.activationEnd frame) := by
  refine .bind (h.word frame) (fun w => ?_)
  split
  · exact h.cellEnd frame
  · exact .refl _

omit h in
/-- An activation ends within the words in use. -/
theorem le_used_of_activationEnd {frame stop : Nat} (hstop : a.activationEnd frame = .ok stop) :
    stop ≤ a.used := by
  simp only [Arena.activationEnd, Arena.cellEnd, Bind.bind, Except.bind] at hstop
  split at hstop
  · cases hstop
  · split at hstop
    · split at hstop
      · cases hstop
      · split at hstop
        · cases hstop
        · split at hstop
          · cases hstop
            assumption
          · cases hstop
    · cases hstop

theorem slots (frame : Nat) : Confirms (a.slots frame) (a'.slots frame) := by
  refine .bind_of_eq (h.activationEnd frame) (fun stop hstop => ?_)
  have hle := le_used_of_activationEnd hstop
  have hextract : ∀ i, a'.words.extract i stop = a.words.extract i stop := by
    intro i
    refine Array.ext_getElem? (fun k => ?_)
    rw [Array.getElem?_extract, Array.getElem?_extract]
    have hused := h.used_le
    unfold Arena.used at hused hle
    by_cases hk : k < stop - i
    · rw [if_pos (by omega), if_pos (by omega), h.getElem?_eq (by unfold Arena.used; omega)]
    · rw [if_neg (by omega), if_neg (by omega)]
  rw [hextract]
  exact .refl _

theorem functionOf (addr : Nat) : Confirms (a.functionOf addr) (a'.functionOf addr) := by
  refine .bind (h.field addr _) (fun w => ?_)
  cases w with
  | negSucc k => exact .refl _
  | ofNat i =>
    dsimp only
    cases hf : a.code.functions[i]? with
    | none => exact .of_error _ _
    | some f =>
      rw [h.functions i f hf]
      exact .refl _

theorem closureCode (addr : Nat) :
    Confirms (Decode.closureCode a addr) (Decode.closureCode a' addr) := by
  refine .bind (h.functionOf addr) (fun f => ?_)
  cases hnames : a.code.names[f.names]? with
  | none => exact .of_error _ _
  | some params =>
    rw [h.names _ params hnames]
    exact .refl _

end Arena.Keeps

/-! ## Decoding -/

/-- What `x` decodes, `y` decodes as well, and does the same to the store. -/
def Decode.Kept {α : Type} (x y : Decode α) : Prop :=
  ∀ d v d', outcome x d = some (.ok v, d') → outcome y d = some (.ok v, d')

namespace Decode.Kept

variable {α β : Type} {x y : Decode α}

theorem refl (x : Decode α) : Kept x x := fun _ _ _ h => h

theorem bind {f g : α → Decode β} (hx : Kept x y) (hf : ∀ v, Kept (f v) (g v)) :
    Kept (x >>= f) (y >>= g) := by
  intro d b d' hb
  obtain ⟨v, d1, hv, hb⟩ := outcome_bind_ok.mp hb
  exact outcome_bind_ok.mpr ⟨v, d1, hx d v d1 hv, hf v d1 b d' hb⟩

theorem read {o o' : Except ArenaError α} {f g : α → Decode β} (ho : Confirms o o')
    (hf : ∀ v, o = .ok v → Kept (f v) (g v)) : Kept (ofExcept o >>= f) (ofExcept o' >>= g) := by
  intro d b d' hb
  cases hov : o with
  | error e =>
    rw [hov] at hb
    cases hb
  | ok v =>
    rw [hov] at hb
    rw [ho v hov]
    exact hf v hov d b d' hb

end Decode.Kept

/-- An arena that has everything another one has decodes what the other one does. -/
theorem Arena.Keeps.decode {a a' : Arena} (h : a.Keeps a') (n : Nat) :
    (∀ addr, Decode.Kept (Decode.value a n addr) (Decode.value a' n addr)) ∧
    (∀ addr, Decode.Kept (Decode.reference a n addr) (Decode.reference a' n addr)) ∧
    (∀ addr, Decode.Kept (Decode.closure a n addr) (Decode.closure a' n addr)) ∧
    (∀ link, Decode.Kept (Decode.frame a n link) (Decode.frame a' n link)) ∧
    ∀ bs ws, Decode.Kept (Decode.fill a n bs ws) (Decode.fill a' n bs ws) := by
  induction n with
  | zero => exact ⟨fun _ => .refl _, fun _ => .refl _, fun _ => .refl _, fun _ => .refl _,
      fun _ _ => .refl _⟩
  | succ n ih =>
    obtain ⟨ihv, ihr, ihc, ihf, ihl⟩ := ih
    refine ⟨fun addr => ?_, fun addr => ?_, fun addr => ?_, fun link => ?_, fun bs ws => ?_⟩
    · rw [Decode.value, Decode.value]
      refine .bind (.refl _) (fun d => ?_)
      split
      · exact .refl _
      · refine .read (h.word addr) (fun w _ => ?_)
        split
        · exact .read (h.field addr _) (fun _ _ => .refl _)
        · exact .refl _
        · exact .refl _
        · exact .refl _
        · exact .refl _
        · exact .read (h.fieldAddr addr _) (fun _ _ => .bind (ihv _)
            (fun _ => .read (h.fieldAddr addr _) (fun _ _ => .bind (ihv _) (fun _ => .refl _))))
        · exact ihr addr
        · exact ihc addr
        · exact .refl _
        · exact .refl _
    · rw [Decode.reference, Decode.reference]
      exact .bind (.refl _) (fun _ => .bind (.refl _) (fun _ => .read (h.fieldAddr addr _)
        (fun _ _ => .bind (ihv _) (fun _ => .refl _))))
    · rw [Decode.closure, Decode.closure]
      exact .read (h.closureCode addr) (fun _ _ => .read (h.fieldLink addr _)
        (fun _ _ => .bind (ihf _) (fun _ => .refl _)))
    · cases link with
      | none => exact .refl _
      | some addr =>
        rw [Decode.frame, Decode.frame]
        refine .bind (.refl _) (fun d => ?_)
        split
        · exact .refl _
        · refine .read (h.fieldLink addr _) (fun _ _ => .bind (ihf _) (fun _ => ?_))
          refine .read (h.slots addr) (fun words hwords => ?_)
          -- an activation that can be read is one that was there
          have hnames : ∀ count, Decode.slotNames a' addr count =
              Decode.slotNames a addr count := fun count => by
            rw [Decode.slotNames, h.frameNames addr (Arena.lt_of_slots hwords)]
            rfl
          rw [hnames]
          exact .bind (.refl _) (fun _ => .bind (.refl _)
            (fun _ => .bind (ihl _ _) (fun _ => .refl _)))
    · cases bs with
      | nil => cases ws <;> exact .refl _
      | cons b bs =>
        cases ws with
        | nil => exact .refl _
        | cons w ws =>
          rw [Decode.fill, Decode.fill]
          split
          · exact .read (.refl _) (fun _ _ => .bind (ihv _) (fun _ => .bind (.refl _)
              (fun _ => ihl bs ws)))
          · exact ihl bs ws

/-! ## One program after another -/

theorem Reached.inOrder {r : Run} (hr : Reached r) : r.InOrder := by
  induction hr with
  | start capacity =>
    refine .of_empty (fun k f hf => ?_) (fun p i hp => ?_) rfl
    · cases hf
    · exact absurd (Std.HashMap.getElem?_empty.symm.trans hp) (by simp)
  | takeOver before ih => exact .of_empty ih.functions ih.frames rfl
  | program before run ih => exact (ih.program run).1

section

variable {r r' : Run} {limit n : Nat} {e : AddressedExpr} {o : Except ArenaError Nat}

/-- A program only adds words. For its heap, the words that are there stand before it. -/
theorem Reached.words_prefix (hr : Reached r) (hrun : r.program limit n e = some (o, r')) :
    r.arena.words.toList <+: r'.arena.words.toList := by
  obtain ⟨forms, h, hforms, hsub, hlaid⟩ := hr.laidOut.prepare e
  have hwords : r.arena.words.toList = h.below ++ h.words := hlaid.words
  have hreserved : Cell.reserved <+: r.arena.words.toList := by
    rw [hwords]
    exact h.reserved.trans (List.prefix_append _ _)
  have hplaced : Placed forms ⟨r.arena.words.toList, [], hreserved⟩ (r.prepare e).2 := by
    refine ⟨(List.append_nil _).symm, hlaid.room, ?_, hlaid.bodies, hlaid.known, hlaid.numbers⟩
    rintro addr c ⟨before, rest, hnil, -⟩
    exact absurd hnil (by simp)
  obtain ⟨h', hext, hplaced', -⟩ :=
    Safe.eval hforms limit n _ none _ (fun _ hp => by cases hp) hsub _ o r' hplaced hrun
  rw [hplaced'.words, hext.below]
  exact List.prefix_append _ _

theorem Reached.keeps (hr : Reached r) (hrun : r.program limit n e = some (o, r')) :
    r.arena.Keeps r'.arena := by
  obtain ⟨-, hkeeps⟩ := hr.inOrder.program hrun
  refine ⟨hr.words_prefix hrun, hkeeps.functions, hkeeps.names, fun p hp => ?_⟩
  have hframes : r'.arena.code.frames[p]? = r.arena.code.frames[p]? := hkeeps.frames p hp
  rw [CodeTable.frameNames?, CodeTable.frameNames?, hframes]
  cases hi : r.arena.code.frames[p]? with
  | none => rfl
  | some i =>
    have hlt := (hr.inOrder.frames p i hi).2
    have hnames := Array.getElem?_eq_getElem hlt
    rw [Option.bind_some, Option.bind_some, hnames, hkeeps.names i _ hnames]

end

/-- `let r := ref 0; in { r <- map x to r; r }`, a reference to a function that knows it. -/
def knownReference : AddressedExpr :=
  .letIn .synthetic .plain
    [(.synthetic "r", .unary .synthetic .ref (.int .synthetic 0))] ⟨1⟩
    (.block .synthetic
      [.binary .synthetic .assign (.var .synthetic ⟨0, 0⟩)
        (.map .synthetic [.synthetic "x"] ⟨1⟩ (.var .synthetic ⟨1, 0⟩)),
       .var .synthetic ⟨0, 0⟩])

end Mapling
