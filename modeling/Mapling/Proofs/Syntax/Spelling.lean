import Mapling.Expr.Parse
import Mathlib

/-! # Tokens and how they are spelled

A text is scanned piece by piece (`Scan.Passes`). Every token has a spelling, which is scanned as
that token wherever no character that could belong to it follows (`Scan.Spells`), and a text that
is scanned without a fault has only tokens that can be spelled (`TokenKind.Spellable`). -/

namespace Mapling

def IsName (x : String) : Prop :=
  (∃ c cs, x.toList = c :: cs ∧ Scan.isWordStart c ∧ ∀ d ∈ cs, Scan.isWordChar d) ∧
    TokenKind.reserved? x = none

@[simp] def TokenKind.Spellable : TokenKind → Prop
  | .int n => 0 ≤ n ∧ n ≤ Scan.maxInt
  | .ident x => IsName x
  | _ => True

namespace Scan

/-! ## Passing a piece of text -/

/-- The scan of a text that starts with the tokens `ts`. -/
def before (ts : List Token) (r : Scan) : Scan := ⟨ts ++ r.tokens, r.faults⟩

/-- From the position `p` the text `cs` is scanned as the tokens `ts` and then as `rest`, which
stands at `q`. -/
def Passes (p : Pos) (cs : List Char) (ts : List Token) (q : Pos) (rest : List Char) : Prop :=
  scanFrom 0 p cs = (scanFrom 0 q rest).before ts

variable {rest : List Char} {n : Nat}

namespace Passes

variable {p q r : Pos} {cs ds rest : List Char} {ts us : List Token} {c : Char}

theorem refl (p : Pos) (cs : List Char) : Passes p cs [] p cs := rfl

theorem trans (h : Passes p cs ts q ds) (h' : Passes q ds us r rest) :
    Passes p cs (ts ++ us) r rest := by
  rw [Passes, h, h', before, before, before, List.append_assoc]

theorem blank (h : Passes (p.advance ' ') cs ts q rest) : Passes p (' ' :: cs) ts q rest := by
  rw [Passes, ← h, scanFrom, scanFrom]
  rfl

/-- A piece that is a token is passed as that token. -/
theorem token {k : TokenKind} (hblank : isBlank c = false)
    (hcomment : c = '/' → cs.head? ≠ some '/') (hpiece : piece c cs = .token k n) :
    Passes p (c :: cs) [⟨k, pieceSpan p n⟩] (pieceEnd p n) (cs.drop n) := by
  have hskip : skipTrivia false p (c :: cs) = (p, c :: cs) := by
    simp only [skipTrivia, hblank]
    rw [if_neg (by simp), if_neg (by simpa using hcomment)]
  rw [Passes, scanFrom]
  split
  · rename_i q h
    rw [hskip] at h
    cases h
  · rename_i q c' rest h
    rw [hskip] at h
    cases h
    rw [hpiece]
    rfl

end Passes

/-! ## Spellings -/

/-- Behind the text of an expression stands nothing, a blank, or a mark that belongs to no other
token. -/
def Delimited (rest : List Char) : Prop :=
  ∀ c ∈ rest.head?, c ∈ [' ', '(', ')', ',', ';', '\x7d']

theorem delimited_nil : Delimited [] := nofun

theorem Delimited.head_ne (h : Delimited rest) {c : Char}
    (hc : c ∉ [' ', '(', ')', ',', ';', '\x7d']) : rest.head? ≠ some c :=
  fun hrest => hc (h c hrest)

/-- In front of a text in `F`, the text `cs` is scanned as a token of kind `k`. -/
def Spells (F : List Char → Prop) (cs : List Char) (k : TokenKind) : Prop :=
  ∀ p rest, F rest → ∃ s q, Passes p (cs ++ rest) [⟨k, s⟩] q rest

variable {F : List Char → Prop} {c : Char} {cs : List Char} {k : TokenKind}

theorem Spells.of_piece (hblank : isBlank c = false)
    (hcomment : ∀ rest, F rest → c = '/' → (cs ++ rest).head? ≠ some '/')
    (hpiece : ∀ rest, F rest → piece c (cs ++ rest) = .token k cs.length) :
    Spells F (c :: cs) k := by
  intro p rest hrest
  have h : Passes p (c :: (cs ++ rest)) _ _ _ :=
    .token hblank (hcomment rest hrest) (hpiece rest hrest)
  rw [List.drop_left] at h
  exact ⟨_, _, h⟩

theorem spells_mark (m : Mark) : Spells Delimited m.text.toList (.mark m) := by
  have head_ne {rest : List Char} (h : Delimited rest) :
      rest.head? ≠ some '=' ∧ rest.head? ≠ some '-' ∧ rest.head? ≠ some '/' :=
    ⟨h.head_ne (by decide), h.head_ne (by decide), h.head_ne (by decide)⟩
  cases m with
  | slash => exact .of_piece rfl (fun rest hrest _ => (head_ne hrest).2.2) (fun rest _ => rfl)
  | bang | less | greater =>
    simp only [Mark.text, String.reduceToList]
    refine .of_piece rfl (fun rest _ => nofun) (fun rest hrest => ?_)
    simp [piece, oneOrTwo, head_ne hrest, isWordStart]
  | _ => exact .of_piece rfl (fun rest _ => nofun) (fun rest _ => rfl)

/-- A mark that is no part of a longer one is scanned whatever follows. -/
theorem spells_openingMark {m : Mark} (hm : m ∈ [.minus, .tilde, .leftParen, .leftBrace]) :
    Spells (fun _ => True) m.text.toList (.mark m) := by
  simp only [List.mem_cons, List.not_mem_nil, or_false] at hm
  rcases hm with rfl | rfl | rfl | rfl <;>
    exact .of_piece rfl (fun rest _ => nofun) (fun rest _ => rfl)

theorem spells_bang : Spells (fun rest => rest.head? ≠ some '=') Mark.bang.text.toList
    (.mark .bang) := by
  simp only [Mark.text, String.reduceToList]
  refine .of_piece rfl (fun rest _ => nofun) (fun rest hrest => ?_)
  simp [piece, oneOrTwo, hrest, isWordStart]

/-- Nothing but the mark itself is read at an equality sign. -/
theorem Passes.equal_head {p q : Pos} {t : Token} {ts : List Token}
    (h : Passes p ('=' :: cs) (t :: ts) q rest) : t.kind = .mark .equal := by
  have hequal : Passes p ('=' :: cs) [⟨.mark .equal, _⟩] _ _ := .token rfl nofun rfl
  rw [Passes] at h hequal
  rw [hequal] at h
  have htokens := congrArg Scan.tokens h
  simp only [before, List.cons_append, List.cons.injEq] at htokens
  rw [← htokens.1]

/-! ### Words -/

theorem takeWhile_append_of_delimited {f : Char → Bool} (hcs : ∀ d ∈ cs, f d)
    (hf : [' ', '(', ')', ',', ';', '\x7d'].all (fun d => !f d)) (hrest : Delimited rest) :
    (cs ++ rest).takeWhile f = cs := by
  rw [List.takeWhile_append_of_pos hcs]
  cases rest with
  | nil => simp
  | cons d ds =>
    have hd : f d = false := by simpa using List.all_eq_true.mp hf d (hrest d rfl)
    simp [hd]

theorem isBlank_eq_false {f : Char → Bool} (hf : [' ', '\t', '\r', '\n'].all (fun d => !f d))
    (hc : f c) : isBlank c = false := by
  rw [← Bool.not_eq_true]
  intro hblank
  have hmem : c ∈ [' ', '\t', '\r', '\n'] := by
    simpa [isBlank, or_assoc] using hblank
  have hcf : f c = false := by simpa using List.all_eq_true.mp hf c hmem
  rw [hcf] at hc
  cases hc

theorem isDigit_eq_false_of_isWordStart (hc : isWordStart c) : c.isDigit = false := by
  simp only [isWordStart, Char.isAlpha, Char.isUpper, Char.isLower, Bool.or_eq_true,
    Bool.and_eq_true, decide_eq_true_eq, beq_iff_eq] at hc
  simp only [Char.isDigit, Bool.and_eq_false_iff, decide_eq_false_iff_not]
  rcases hc with (hc | hc) | rfl
  · right
    grind
  · right
    grind
  · decide

theorem piece_word (hc : isWordStart c) (cs : List Char) : piece c cs = word c cs := by
  unfold piece
  rw [if_neg (by simp [isDigit_eq_false_of_isWordStart hc]), if_pos hc]

theorem spells_word (hc : isWordStart c) (hcs : ∀ d ∈ cs, isWordChar d) :
    Spells Delimited (c :: cs) (.ofWord (String.ofList (c :: cs))) := by
  refine .of_piece (isBlank_eq_false rfl hc) ?_ (fun rest hrest => ?_)
  · rintro rest - rfl
    exact absurd hc (by decide)
  · have hmark : rest.head? ≠ some '?' := hrest.head_ne (by decide)
    rw [piece_word hc, word, takeWhile_append_of_delimited hcs rfl hrest]
    simp [hmark]

theorem spells_name {x : String} (hx : IsName x) : Spells Delimited x.toList (.ident x) := by
  obtain ⟨⟨c, cs, hchars, hc, hcs⟩, hfree⟩ := hx
  have h := spells_word hc hcs
  rwa [← hchars, String.ofList_toList, TokenKind.ofWord, hfree] at h

theorem spells_keyword (k : Keyword) : Spells Delimited k.text.toList (.keyword k) := by
  cases k <;> exact spells_word rfl (List.all_eq_true.mp rfl)

/-- A word with a question mark is scanned as one token if it is reserved. -/
theorem spells_question (c : Char) (cs : List Char) (hc : isWordStart c)
    (hcs : ∀ d ∈ cs, isWordChar d)
    (hk : TokenKind.reserved? (String.ofList (c :: cs ++ ['?'])) = some k) :
    Spells (fun _ => True) (c :: (cs ++ ['?'])) k := by
  refine .of_piece (isBlank_eq_false rfl hc) ?_ (fun rest _ => ?_)
  · rintro rest - rfl
    exact absurd hc (by decide)
  · have hmore : (cs ++ '?' :: rest).takeWhile isWordChar = cs := by
      rw [List.takeWhile_append_of_pos hcs]
      simp [show isWordChar '?' = false by decide]
    rw [piece_word hc, word, List.append_assoc, List.singleton_append, hmore]
    simp only [List.drop_left, List.head?_cons, beq_self_eq_true, if_true, hk, List.length_append,
      List.length_singleton]

theorem Spells.mono {G : List Char → Prop} (h : Spells G cs k) (hF : ∀ rest, F rest → G rest) :
    Spells F cs k :=
  fun p rest hrest => h p rest (hF rest hrest)

theorem spells_prim (p : Prim) : Spells Delimited p.name.toList (.prim p) := by
  cases p with
  | arity | cons | first | rest => exact spells_word rfl (List.all_eq_true.mp rfl)
  | isNumber =>
    exact (spells_question 'n' "umber".toList rfl (List.all_eq_true.mp rfl) rfl).mono (by simp)
  | isFunction =>
    exact (spells_question 'f' "unction".toList rfl (List.all_eq_true.mp rfl) rfl).mono (by simp)
  | isList =>
    exact (spells_question 'l' "ist".toList rfl (List.all_eq_true.mp rfl) rfl).mono (by simp)
  | isNull =>
    exact (spells_question 'n' "ull".toList rfl (List.all_eq_true.mp rfl) rfl).mono (by simp)
  | isCons =>
    exact (spells_question 'c' "ons".toList rfl (List.all_eq_true.mp rfl) rfl).mono (by simp)
  | isRef =>
    exact (spells_question 'r' "ef".toList rfl (List.all_eq_true.mp rfl) rfl).mono (by simp)

/-! ### Integers -/

theorem piece_integer (hc : c.isDigit) (cs : List Char) : piece c cs = integer c cs := by
  unfold piece
  rw [if_pos hc]

theorem spells_int (hn : n ≤ maxInt) : Spells Delimited (toString n).toList (.int n) := by
  have hdigits : ∀ d ∈ Nat.toDigits 10 n, d.isDigit :=
    fun d hd => Nat.isDigit_of_mem_toDigits (by decide) (by decide) hd
  have hvalue : Nat.ofDigitChars 10 (Nat.toDigits 10 n) 0 = n :=
    Nat.ofDigitChars_toDigits (by decide) (by decide)
  rw [Nat.toString_eq_repr, Nat.toList_repr]
  cases hchars : Nat.toDigits 10 n with
  | nil => exact absurd hchars Nat.toDigits_ne_nil
  | cons c cs =>
    rw [hchars] at hdigits hvalue
    have hc : c.isDigit := hdigits c (.head _)
    have hcs : ∀ d ∈ cs, d.isDigit := fun d hd => hdigits d (.tail _ hd)
    refine .of_piece (isBlank_eq_false rfl hc) ?_ (fun rest hrest => ?_)
    · rintro rest - rfl
      exact absurd hc (by decide)
    · rw [piece_integer hc, integer, takeWhile_append_of_delimited hcs rfl hrest, hvalue,
        if_pos hn]

/-! ## What a text without faults has -/

theorem spellable_integer (h : integer c cs = .token k n) : k.Spellable := by
  simp only [integer] at h
  split at h
  · cases h
    exact ⟨Int.natCast_nonneg _, Int.ofNat_le.mpr ‹_›⟩
  · cases h

theorem spellable_reserved {x : String} (h : TokenKind.reserved? x = some k) : k.Spellable := by
  simp only [TokenKind.reserved?] at h
  split at h
  · cases h
    trivial
  · obtain ⟨p, -, rfl⟩ := Option.map_eq_some_iff.mp h
    trivial

theorem spellable_ofWord (hc : isWordStart c) (hcs : ∀ d ∈ cs, isWordChar d) :
    (TokenKind.ofWord (String.ofList (c :: cs))).Spellable := by
  rw [TokenKind.ofWord]
  cases h : TokenKind.reserved? (String.ofList (c :: cs)) with
  | some k => exact spellable_reserved h
  | none => exact ⟨⟨c, cs, String.toList_ofList, hc, hcs⟩, h⟩

theorem spellable_word (hc : isWordStart c) (h : word c cs = .token k n) : k.Spellable := by
  have hplain := spellable_ofWord hc (fun d hd => List.mem_takeWhile_imp (l := cs) hd)
  simp only [word] at h
  split at h
  · split at h
    · cases h
      exact spellable_reserved ‹_›
    · cases h
      exact hplain
  · cases h
    exact hplain

theorem spellable_piece (h : piece c cs = .token k n) : k.Spellable := by
  unfold piece at h
  split at h
  · exact spellable_integer h
  · split at h
    · exact spellable_word ‹_› h
    · -- What is left are marks.
      simp only [oneOrTwo] at h
      split at h <;> (try split at h) <;> (try split at h) <;> cases h <;> trivial

/-- The tokens can be spelled, and the last one is the end of the text. -/
structure WellSpelled (r : Scan) : Prop where
  spellable : ∀ t ∈ r.tokens, t.kind.Spellable
  ends : ∃ ts z, r.tokens = ts ++ [z] ∧ z.kind = .eof

theorem wellSpelled_atEnd (p : Pos) : (atEnd p).WellSpelled :=
  ⟨by simp [atEnd, TokenKind.Spellable], [], _, rfl, rfl⟩

theorem WellSpelled.cons {r : Scan} (h : r.WellSpelled) {t : Token} (ht : t.kind.Spellable) :
    (r.before [t]).WellSpelled := by
  obtain ⟨ts, z, hts, hz⟩ := h.ends
  refine ⟨?_, t :: ts, z, ?_, hz⟩
  · intro u hu
    rcases List.mem_cons.mp hu with rfl | hu
    · exact ht
    · exact h.spellable u hu
  · rw [before, hts]
    rfl

theorem wellSpelled_scanFrom (n : Nat) (p : Pos) (cs : List Char)
    (h : (scanFrom n p cs).faults = []) : (scanFrom n p cs).WellSpelled := by
  fun_induction scanFrom n p cs with
  | case1 n p cs q => exact wellSpelled_atEnd q
  | case2 => cases h
  | case3 n p cs q c rest _ k extra hpiece more ih =>
    refine WellSpelled.cons (r := more) ?_ (spellable_piece hpiece)
    by_cases hfull : Report.limit ≤ n
    · simp only [more, dif_pos hfull]
      exact wellSpelled_atEnd _
    · simp only [more, dif_neg hfull] at h ⊢
      exact ih h
  | case4 => cases h

end Scan

end Mapling
