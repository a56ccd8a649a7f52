import Mapling.Proofs.Syntax.RoundTrip

/-! # Texts of tokens

Every token has a text. The texts of any tokens, with a blank between each two, are scanned as
these tokens again: a blank ends a word, an integer and a mark, and it belongs to none of them.

Main statement: `scan_texts`. -/

namespace Mapling

open Mapling.Scan

/-- The tokens inside of a text. An integer has no sign and fits in 64 bits, and an identifier is a
word of ASCII letters, digits and underscores that starts with no digit and stands for no keyword
and no primitive. -/
def TokenKind.Inner : TokenKind → Prop
  | .int n => 0 ≤ n ∧ n < 2 ^ 63
  | .ident x =>
    (∃ c cs, x.toList = c :: cs ∧ (c.isAlpha ∨ c = '_') ∧ ∀ d ∈ cs, d.isAlphanum ∨ d = '_') ∧
      (∀ k : Keyword, k.text ≠ x) ∧ ∀ p : Prim, p.name ≠ x
  | .eof => False
  | _ => True

variable {k : TokenKind}

theorem TokenKind.reserved?_eq_none {x : String} (hkeyword : ∀ k : Keyword, k.text ≠ x)
    (hprim : ∀ p : Prim, p.name ≠ x) : reserved? x = none := by
  have hk : Keyword.ofText? x = none :=
    List.find?_eq_none.mpr (fun k _ => by simpa using hkeyword k)
  have hp : Prim.ofName? x = none := List.find?_eq_none.mpr (fun p _ => by simpa using hprim p)
  rw [reserved?, hk, hp]
  rfl

theorem TokenKind.Inner.isName {x : String} (h : Inner (.ident x)) : IsName x := by
  obtain ⟨⟨c, cs, hchars, hc, hcs⟩, hkeyword, hprim⟩ := h
  refine ⟨⟨c, cs, hchars, ?_, fun d hd => ?_⟩, reserved?_eq_none hkeyword hprim⟩
  · simpa [isWordStart] using hc
  · simpa [isWordChar] using hcs d hd

/-- The text of a token is scanned as that token, and it is ASCII. -/
theorem TokenKind.Inner.spells (h : k.Inner) :
    Spells Delimited k.text.toList k ∧ IsAscii k.text.toList := by
  cases k with
  | int n =>
    obtain ⟨m, rfl⟩ := Int.eq_ofNat_of_zero_le h.1
    have hm : m ≤ Scan.maxInt := by
      have := h.2
      rw [Scan.maxInt]
      omega
    exact ⟨spells_int hm, isAscii_toString m⟩
  | ident x => exact ⟨spells_name h.isName, h.isName.isAscii⟩
  | prim p => exact ⟨spells_prim p, by cases p <;> simp [text, Prim.name]⟩
  | keyword w => exact ⟨spells_keyword w, by cases w <;> simp [text, Keyword.text]⟩
  | mark m => exact ⟨spells_mark m, by cases m <;> simp [text, Mark.text]⟩
  | eof => exact h.elim

/-- Tokens with a blank in front of each. -/
theorem Scan.passes_texts {ks : List TokenKind} (hks : ∀ k ∈ ks, k.Inner) (p : Pos) :
    ∃ ts q, Passes p (ks.flatMap (fun k => ' ' :: k.text.toList)) ts q [] ∧
      ts.map Token.kind = ks := by
  induction ks generalizing p with
  | nil => exact ⟨[], p, .refl p [], rfl⟩
  | cons k ks ih =>
    obtain ⟨hk, hks⟩ := List.forall_mem_cons.mp hks
    have hdelimited : Delimited (ks.flatMap (fun k => ' ' :: k.text.toList)) := by
      cases ks with
      | nil => exact delimited_nil
      | cons k ks => simp [Delimited]
    obtain ⟨sp, q, hpass⟩ := hk.spells.1 (p.advance ' ') _ hdelimited
    obtain ⟨ts, r, hrest, hkinds⟩ := ih hks q
    exact ⟨_, r, (Passes.blank hpass).trans hrest, congrArg (k :: ·) hkinds⟩

/-- The texts of tokens, joined by single blanks, are scanned as these tokens and the end of the
text, and nothing is reported. -/
theorem scan_texts (ks : List TokenKind) (hks : ∀ k ∈ ks, k.Inner) (s : Source)
    (hs : s.text = String.intercalate " " (ks.map TokenKind.text)) :
    (Scan.ofSource s).tokens.map Token.kind = ks ++ [.eof] ∧
      (Scan.ofSource s).report s = .empty := by
  have hascii : IsAscii s.text.toList := by
    rw [hs]
    exact isAscii_intercalate " " (by simp) (by simpa using fun k hk => (hks k hk).spells.2)
  -- a blank in front of the first token changes nothing but positions
  have hpass : ∃ ts q, Passes ⟨1, 1⟩ s.text.toList ts q [] ∧ ts.map Token.kind = ks := by
    rw [hs]
    cases ks with
    | nil => exact ⟨[], _, .refl _ [], rfl⟩
    | cons k ks =>
      obtain ⟨ts, q, hblank, hkinds⟩ := passes_texts hks ⟨1, 0⟩
      refine ⟨ts, q, ?_, hkinds⟩
      rw [List.map_cons, toList_intercalate_cons, separated, List.flatMap_map]
      rw [Passes, ← hblank, List.flatMap_cons, List.cons_append, scanFrom, scanFrom]
      rfl
  obtain ⟨ts, q, hpass, hkinds⟩ := hpass
  have hscan : Scan.ofSource s = (atEnd q).before ts := by
    rw [Scan.ofSource, Source.bytes, hascii.bytes, hpass, scanFrom]
    rfl
  rw [hscan]
  exact ⟨by simp [before, atEnd, hkinds], rfl⟩

/-- Tokens that would be others without the blanks between them, and the largest integer. -/
def crowdedTokens : List TokenKind :=
  [.int 9223372036854775807, .ident "null_", .keyword .kwNull, .prim .isNull, .mark .less,
    .mark .minus, .mark .leftArrow, .mark .slash, .mark .slash]

def crowded : Source :=
  ⟨"<input>", "9223372036854775807 null_ null null? < - <- / /"⟩

theorem scan_texts_crowded :
    (Scan.ofSource crowded).tokens.map Token.kind = crowdedTokens ++ [.eof] ∧
      (Scan.ofSource crowded).report crowded = .empty := by
  refine scan_texts crowdedTokens ?_ crowded (by decide)
  have hword : TokenKind.Inner (.ident "null_") := by
    refine ⟨⟨'n', "ull_".toList, rfl, .inl rfl, by simp⟩, fun k => ?_, fun p => ?_⟩
    · cases k <;> decide
    · cases p <;> decide
  simp only [crowdedTokens, List.forall_mem_cons]
  exact ⟨⟨by decide, by decide⟩, hword, trivial, trivial, trivial, trivial, trivial, trivial,
    trivial, List.forall_mem_nil _⟩

end Mapling
