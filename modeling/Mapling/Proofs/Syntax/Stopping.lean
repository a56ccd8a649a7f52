import Mapling.Proofs.Syntax.Soundness
import Mathlib

/-! # Where reading stops

Reading gives a program and reports nothing, or it gives none and reports the first token that is
left, and no other.

Main statement: `parseTokens_stops`. -/

namespace Mapling

/-- Every scan ends with the end of the text, whatever is wrong with the text. -/
theorem Scan.endsText_scanFrom (n : Nat) (p : Pos) (cs : List Char) :
    EndsText (scanFrom n p cs).tokens := by
  have hend : ∀ q, EndsText (atEnd q).tokens := fun q => ⟨[], _, rfl, rfl⟩
  have hcons : ∀ (t : Token) {us : List Token}, EndsText us → EndsText (t :: us) := by
    rintro t _ ⟨us, z, rfl, hz⟩
    exact ⟨t :: us, z, rfl, hz⟩
  fun_induction scanFrom n p cs with
  | case1 n p cs q => exact hend q
  | case2 n p cs q c rest _ _ more ih => exact ih
  | case3 n p cs q c rest _ k extra _ more ih =>
    refine hcons _ ?_
    by_cases hfull : Report.limit ≤ n
    · simp only [more, dif_pos hfull]
      exact hend _
    · simp only [more, dif_neg hfull]
      exact ih
  | case4 n p cs q c rest _ digits _ extra more ih =>
    refine hcons _ ?_
    by_cases hfull : Report.limit ≤ n + 1
    · simp only [more, dif_pos hfull]
      exact hend _
    · simp only [more, dif_neg hfull]
      exact ih

/-- Reading tokens ends with a program and no error, or with no program and one error. The error is
at a token of the list, and the tokens before it have been read when reading ends. The tokens of
every source end as they have to. -/
theorem parseTokens_stops :
    (∀ s : Source, EndsText (Scan.ofSource s).tokens) ∧
    ∀ ts, EndsText ts →
      (∃ e, ParseResult.ofTokens ts = ⟨some e, []⟩ ∧
        ∀ s, (ParseResult.ofTokens ts).report s = .empty) ∨
      ∃ f read t left, ts = read ++ t :: left ∧ (Parser.program ts).2.rest = t :: left ∧
        ParseResult.ofTokens ts = ⟨none, [(f, t.span)]⟩ ∧
        ∀ s, (ParseResult.ofTokens ts).report s = ⟨[(f.diagnostic t.span).withSource s], 1⟩ := by
  refine ⟨fun s => Scan.endsText_scanFrom _ _ _, fun ts hts => ?_⟩
  rcases Parser.program_ends hts with ⟨d, c, -, -, hprogram, hfaults⟩ |
    ⟨f, read, t, left, hread, hleft, hfaults⟩
  · have hresult : ParseResult.ofTokens ts = ⟨some d.tree, []⟩ := by
      simp [ParseResult.ofTokens, hprogram, hfaults]
    exact .inl ⟨_, hresult, fun s => by rw [hresult]; rfl⟩
  · have hresult : ParseResult.ofTokens ts = ⟨none, [(f, t.span)]⟩ := by
      simp [ParseResult.ofTokens, hfaults]
    exact .inr ⟨f, read, t, left, hread, hleft, hresult, fun s => by rw [hresult]; rfl⟩

/-- The tokens of `1 +`. -/
def unfinishedSum : List Token :=
  [⟨.int 1, .point ⟨1, 1⟩⟩, ⟨.mark .plus, .point ⟨1, 3⟩⟩, ⟨.eof, .point ⟨1, 4⟩⟩]

theorem parseTokens_stops_unfinishedSum :
    EndsText unfinishedSum ∧ ∃ f read t left, unfinishedSum = read ++ t :: left ∧
      (Parser.program unfinishedSum).2.rest = t :: left ∧
      ParseResult.ofTokens unfinishedSum = ⟨none, [(f, t.span)]⟩ ∧
      ∀ s, (ParseResult.ofTokens unfinishedSum).report s =
        ⟨[(f.diagnostic t.span).withSource s], 1⟩ := by
  have hends : EndsText unfinishedSum := ⟨unfinishedSum.take 2, _, rfl, rfl⟩
  refine ⟨hends, (parseTokens_stops.2 unfinishedSum hends).resolve_left ?_⟩
  rintro ⟨e, he, -⟩
  have hstop : ParseResult.ofTokens unfinishedSum =
      ⟨none, [(.expectedExpression .eof, .point ⟨1, 4⟩)]⟩ := by cbv
  rw [hstop] at he
  cases he

end Mapling
