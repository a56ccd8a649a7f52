import Mapling.Proofs.Syntax.Stretches

/-! # What a scan keeps of a text

In a text that is read to its end every byte is accounted for. Tokens have the exact spans of
their texts, in order; the text of a token alone is that token again; and a byte that no token
spans is blank, stands in a comment, or is reported once. -/

namespace Mapling

namespace Scan

variable {p : Pos} {c : Char} {cs seg rest more : List Char} {ts us : List Token} {t : Token}
  {fs gs : List (ScanFault × Span)} {k : TokenKind} {n i : Nat}

/-! ## Spans -/

/-- The span of a stretch on one line that starts at `p`. -/
structure Spans (p : Pos) (seg : List Char) (s : Span) : Prop where
  nonempty : seg ≠ []
  line : '\n' ∉ seg
  eq : s = ⟨p, ⟨p.line, p.col + (seg.length - 1)⟩⟩

variable {s : Span}

theorem Spans.of_piece (h : '\n' ∉ c :: cs) : Spans p (c :: cs) (.onLine p cs.length) :=
  ⟨List.cons_ne_nil _ _, h, rfl⟩

theorem Spans.start_eq (h : Spans p seg s) : s.start = p := by rw [h.eq]

theorem Spans.length_pos (h : Spans p seg s) : 0 < seg.length :=
  List.length_pos_iff.mpr h.nonempty

/-- The text of a span ends right after it. -/
theorem Spans.stop_lt (h : Spans p seg s) : s.stop < p.afterAll seg := by
  have hpos := h.length_pos
  rw [Pos.afterAll_of_line p h.line, h.eq, Pos.lt_iff]
  refine .inr ⟨rfl, ?_⟩
  show p.col + (seg.length - 1) < p.col + seg.length
  omega

theorem Spans.covers (h : Spans p seg s) (hi : i < seg.length) :
    s.Covers (p.afterAll (seg.take i)) := by
  have hline : '\n' ∉ seg.take i := fun hmem => h.line (List.mem_of_mem_take hmem)
  rw [Pos.afterAll_of_line p hline, List.length_take_of_le hi.le, h.eq, Span.Covers, Pos.le_iff,
    Pos.le_iff]
  refine ⟨.inr ⟨rfl, Nat.le_add_right _ _⟩, .inr ⟨rfl, ?_⟩⟩
  show p.col + i ≤ p.col + (seg.length - 1)
  omega

/-- The span of a stretch delimits that stretch in the whole text. -/
theorem Spans.cut_eq (h : Spans p seg s) (rest : List Char) : s.cut p (seg ++ rest) = seg := by
  rw [Span.cut_append, Span.cut_covered (fun i hi => h.covers hi), Span.cut_behind h.stop_lt,
    List.append_nil]

theorem Step.spans (h : Step p seg rest ts fs) :
    (∀ t ∈ ts, Spans p seg t.span) ∧ ∀ f ∈ fs, Spans p seg f.2 := by
  cases h with
  | blank | comment => exact ⟨nofun, nofun⟩
  | stray hc => exact ⟨nofun, List.forall_mem_singleton.mpr (.of_piece (line_of_visible hc))⟩
  | token hc hcomment hpiece =>
    have hline := (lexeme_of_token hpiece).line
    exact ⟨List.forall_mem_singleton.mpr (.of_piece hline), nofun⟩
  | tooLarge hc hpiece =>
    have hline := (lexeme_of_tooLarge hpiece).line
    exact ⟨List.forall_mem_singleton.mpr (.of_piece hline),
      List.forall_mem_singleton.mpr (.of_piece hline)⟩

/-- What is read starts no earlier than the text. -/
theorem Steps.le_start (h : Steps p cs ts fs) :
    (∀ t ∈ ts, p ≤ t.span.start) ∧ ∀ f ∈ fs, p ≤ f.2.start := by
  induction h with
  | done => exact ⟨nofun, nofun⟩
  | @step p seg rest ts us fs gs hstep hrest ih =>
    have hle := Pos.le_afterAll p seg
    constructor
    · intro t ht
      rcases List.mem_append.mp ht with ht | ht
      · exact (hstep.spans.1 t ht).start_eq.ge
      · exact hle.trans (ih.1 t ht)
    · intro f hf
      rcases List.mem_append.mp hf with hf | hf
      · exact (hstep.spans.2 f hf).start_eq.ge
      · exact hle.trans (ih.2 f hf)

theorem Step.pairwise (h : Step p seg rest ts fs) (R : Token → Token → Prop) :
    ts.Pairwise R := by
  cases h <;> simp

/-- Each token stands behind the one before it. -/
theorem Steps.pairwise (h : Steps p cs ts fs) :
    ts.Pairwise (fun t u => t.span.stop < u.span.start) := by
  induction h with
  | done => exact .nil
  | @step p seg rest ts us fs gs hstep hrest ih =>
    refine List.pairwise_append.mpr ⟨hstep.pairwise _, ih, fun t ht u hu => ?_⟩
    calc t.span.stop < p.afterAll seg := (hstep.spans.1 t ht).stop_lt
      _ ≤ u.span.start := hrest.le_start.1 u hu

/-- Where a token is read: in one stretch, whose faults are those at the token's span. -/
theorem Steps.at_token (h : Steps p cs ts fs) (ht : t ∈ ts) :
    ∃ pre seg rest, cs = pre ++ (seg ++ rest) ∧
      Step (p.afterAll pre) seg rest [t] (fs.filter (fun f => f.2 = t.span)) := by
  induction h with
  | done => cases ht
  | @step p seg rest ts us fs gs hstep hrest ih =>
    have hsegment : seg ≠ [] := by cases hstep <;> exact List.cons_ne_nil _ _
    have hlt : p < p.afterAll seg := Pos.lt_afterAll p hsegment
    rw [List.filter_append]
    rcases List.mem_append.mp ht with ht | ht
    · refine ⟨[], seg, rest, rfl, ?_⟩
      have hlater : gs.filter (fun f => f.2 = t.span) = [] := by
        refine List.filter_eq_nil_iff.mpr (fun f hf heq => ?_)
        have hstart : f.2.start = p := by
          rw [of_decide_eq_true heq, (hstep.spans.1 t ht).start_eq]
        exact absurd (hrest.le_start.2 f hf) (by rw [hstart]; exact not_le.mpr hlt)
      rw [hlater, List.append_nil]
      cases hstep with
      | blank | comment | stray => cases ht
      | token hc hcomment hpiece =>
        cases List.mem_singleton.mp ht
        exact .token hc hcomment hpiece
      | tooLarge hc hpiece =>
        cases List.mem_singleton.mp ht
        rw [List.filter_eq_self.mpr (by simp)]
        exact .tooLarge hc hpiece
    · obtain ⟨pre, seg', rest', rfl, hat⟩ := ih ht
      refine ⟨seg ++ pre, seg', rest', by rw [List.append_assoc], ?_⟩
      have hearlier : fs.filter (fun f => f.2 = t.span) = [] := by
        refine List.filter_eq_nil_iff.mpr (fun f hf heq => ?_)
        have hstart : t.span.start = p := by
          rw [← of_decide_eq_true heq, (hstep.spans.2 f hf).start_eq]
        exact absurd (hrest.le_start.1 t ht) (by rw [hstart]; exact not_le.mpr hlt)
      rw [hearlier, List.nil_append, Pos.afterAll_append]
      exact hat

/-! ## Tokens alone -/

theorem skipTrivia_piece (hc : isBlank c = false) (hcomment : c = '/' → cs.head? ≠ some '/') :
    skipTrivia false p (c :: cs) = (p, c :: cs) := by
  rw [skipTrivia, if_neg (by simp [hc]), if_neg (by simpa using hcomment)]

theorem scanFrom_nil (n : Nat) (p : Pos) : scanFrom n p [] = atEnd p := by
  rw [scanFrom]
  rfl

/-- An integer that is too large, alone. -/
theorem scanFrom_tooLarge (hc : isBlank c = false) (hcomment : c = '/' → more.head? ≠ some '/')
    (h : piece c more = .tooLarge (c :: more)) :
    scanFrom 0 p (c :: more) =
      ⟨⟨.int 0, pieceSpan p more.length⟩ :: (atEnd (pieceEnd p more.length)).tokens,
        [(.tooLarge (String.ofList (c :: more)), digitsSpan p more.length)]⟩ := by
  have hskip := skipTrivia_piece (p := p) hc hcomment
  rw [scanFrom]
  split
  · rename_i q hq
    rw [hskip] at hq
    cases hq
  · rename_i q c' rest hq
    rw [hskip] at hq
    cases hq
    rw [h]
    simp only [List.length_cons, Nat.add_sub_cancel, List.drop_length]
    rw [if_neg (by decide), scanFrom_nil]
    rfl

/-- A token alone. -/
theorem scanFrom_token (hc : isBlank c = false) (hcomment : c = '/' → more.head? ≠ some '/')
    (h : piece c more = .token k more.length) :
    scanFrom 0 p (c :: more) =
      ⟨⟨k, pieceSpan p more.length⟩ :: (atEnd (pieceEnd p more.length)).tokens, []⟩ := by
  have hpasses : Passes p (c :: more) _ _ _ := .token hc hcomment h
  rw [List.drop_length, Passes, scanFrom_nil] at hpasses
  rw [hpasses]
  rfl

theorem reserved_ne_eof (x : String) : TokenKind.reserved? x ≠ some .eof := by
  rw [TokenKind.reserved?]
  cases Keyword.ofText? x <;> simp

/-- No piece of a text is its end. -/
theorem piece_ne_eof (c : Char) (cs : List Char) (n : Nat) : piece c cs ≠ .token .eof n := by
  have hword (x : String) : TokenKind.ofWord x ≠ .eof := by
    have hne := reserved_ne_eof x
    rw [TokenKind.ofWord]
    cases h : TokenKind.reserved? x with
    | none => rintro ⟨⟩
    | some k =>
      rintro rfl
      exact hne h
  intro h
  unfold piece at h
  split at h
  · simp only [integer] at h
    split at h <;> cases h
  · split at h
    · simp only [word] at h
      split at h
      · split at h
        · cases h
          exact reserved_ne_eof _ ‹_›
        · exact hword _ (Piece.token.inj h).1
      · exact hword _ (Piece.token.inj h).1
    · simp only [oneOrTwo] at h
      split at h <;> (try split at h) <;> (try split at h) <;> cases h

def OutOfRange (cs : List Char) : Prop :=
  (∀ d ∈ cs, d.isDigit) ∧ maxInt < Nat.ofDigitChars 10 cs 0

instance (cs : List Char) : Decidable (OutOfRange cs) := inferInstanceAs (Decidable (_ ∧ _))

theorem not_outOfRange (h : piece c more = .token k more.length) : ¬ OutOfRange (c :: more) := by
  rintro ⟨hdigits, hlarge⟩
  have hself : more.takeWhile Char.isDigit = more :=
    List.takeWhile_eq_self_iff.mpr (fun d hd => hdigits d (.tail _ hd))
  rw [piece_integer (hdigits c (.head _)), integer] at h
  simp only [hself, if_neg (Nat.not_le.mpr hlarge)] at h
  cases h

theorem outOfRange_of_tooLarge (h : piece c more = .tooLarge (c :: more)) :
    OutOfRange (c :: more) := by
  have hc := isDigit_of_tooLarge h
  rw [piece_integer hc] at h
  simp only [integer] at h
  split at h
  case isTrue => cases h
  case isFalse hlarge =>
    rw [Piece.tooLarge.inj h] at hlarge
    refine ⟨?_, Nat.lt_of_not_le hlarge⟩
    rw [← Piece.tooLarge.inj h]
    exact forall_mem_cons_takeWhile hc

/-- How a token of one stretch is read when its bytes stand alone. -/
theorem Step.alone (h : Step p seg rest [t] fs) (q : Pos) :
    IsAscii seg ∧ (scanFrom 0 q seg).tokens =
        [⟨t.kind, pieceSpan q (seg.length - 1)⟩, ⟨.eof, .point (pieceEnd q (seg.length - 1))⟩] ∧
      (scanFrom 0 q seg).faults.map (fun f => f.1.code) = fs.map (fun f => f.1.code) ∧
      fs.map (fun f => f.1.code) = (if OutOfRange seg then [Code.integerTooLarge] else []) ∧
      (OutOfRange seg → t.kind = .int 0) ∧ t.kind ≠ .eof := by
  cases h with
  | @token c more rest k hc hcomment hpiece =>
    have hlexeme := lexeme_of_token hpiece
    have halone : c = '/' → more.head? ≠ some '/' := by
      rintro rfl
      rw [(hlexeme.slash (.head _)).2]
      exact nofun
    have hin := not_outOfRange hlexeme.alone
    rw [scanFrom_token hc halone hlexeme.alone, if_neg hin]
    refine ⟨hlexeme.ascii, rfl, rfl, rfl, fun hout => absurd hout hin, ?_⟩
    rintro rfl
    exact piece_ne_eof _ _ _ hpiece
  | @tooLarge c more rest hc hpiece =>
    have hlexeme := lexeme_of_tooLarge hpiece
    have halone : c = '/' → more.head? ≠ some '/' := by
      rintro rfl
      rw [(hlexeme.slash (.head _)).2]
      exact nofun
    rw [scanFrom_tooLarge hc halone hlexeme.alone,
      if_pos (outOfRange_of_tooLarge hlexeme.alone)]
    exact ⟨hlexeme.ascii, rfl, rfl, rfl, fun _ => rfl, nofun⟩

/-! ## Comments and stray bytes -/

/-- Byte `i` of the text stands in a comment: on its line there are two slashes, and it is the
first of them or stands behind it. -/
def InComment (cs : List Char) (i : Nat) : Prop :=
  ∃ j ≤ i, cs[j]? = some '/' ∧ cs[j + 1]? = some '/' ∧ ∀ k, j ≤ k → k ≤ i → cs[k]? ≠ some '\n'

/-- Of two slashes in a row, the first of which is in the stretch, the stretch is a comment, and
takes the line to its end. -/
theorem Step.head_of_slashes (h : Step p seg rest ts fs) (hi : i < seg.length)
    (hfirst : (seg ++ rest)[i]? = some '/') (hsecond : (seg ++ rest)[i + 1]? = some '/') :
    ∀ d ∈ rest.head?, d = '\n' := by
  have hmem : '/' ∈ seg := by
    rw [List.getElem?_append_left hi] at hfirst
    exact List.mem_of_getElem? hfirst
  cases h with
  | blank hc =>
    cases List.mem_singleton.mp hmem
    cases hc
  | comment htext hrest => exact hrest
  | stray hc hpiece =>
    cases List.mem_singleton.mp hmem
    cases hpiece
  | @token c more rest k hc hcomment hpiece =>
    obtain ⟨rfl, rfl⟩ := (lexeme_of_token hpiece).slash hmem
    obtain rfl : i = 0 := by simpa using hi
    exact absurd (List.head?_eq_getElem? ▸ hsecond) (hcomment rfl)
  | @tooLarge c more rest hc hpiece =>
    obtain ⟨rfl, rfl⟩ := (lexeme_of_tooLarge hpiece).slash hmem
    cases hpiece

/-- Which bytes after a stretch are in a comment does not depend on the stretch. -/
theorem Step.inComment_iff (h : Step p seg rest ts fs) (hi : i < rest.length) :
    InComment (seg ++ rest) (seg.length + i) ↔ InComment rest i := by
  have hshift (k : Nat) : (seg ++ rest)[seg.length + k]? = rest[k]? := by
    rw [List.getElem?_append_right (Nat.le_add_right _ _), Nat.add_sub_cancel_left]
  constructor
  · rintro ⟨j, hj, hfirst, hsecond, hline⟩
    by_cases hseg : j < seg.length
    · -- The comment would end with the stretch.
      have hhead := h.head_of_slashes hseg hfirst hsecond
      have hnewline : (seg ++ rest)[seg.length + 0]? = some '\n' := by
        rw [hshift, ← List.head?_eq_getElem?]
        cases rest with
        | nil => cases hi
        | cons d rest => rw [List.head?_cons, hhead d rfl]
      exact absurd hnewline (hline _ (by omega) (by omega))
    · obtain ⟨j, rfl⟩ := Nat.exists_eq_add_of_le (Nat.le_of_not_lt hseg)
      rw [hshift] at hfirst
      rw [Nat.add_assoc, hshift] at hsecond
      refine ⟨j, by omega, hfirst, hsecond, fun k hjk hki => ?_⟩
      rw [← hshift]
      exact hline _ (by omega) (by omega)
  · rintro ⟨j, hj, hfirst, hsecond, hline⟩
    refine ⟨seg.length + j, by omega, ?_, ?_, fun k hjk hki => ?_⟩
    · rw [hshift, hfirst]
    · rw [Nat.add_assoc, hshift, hsecond]
    · obtain ⟨k, rfl⟩ := Nat.exists_eq_add_of_le (show seg.length ≤ k by omega)
      rw [hshift]
      exact hline _ (by omega) (by omega)

/-- Byte `i` of the text is no blank, in no token and in no comment. -/
structure Loose (p : Pos) (cs : List Char) (ts : List Token) (i : Nat) : Prop where
  visible : ∀ c ∈ cs[i]?, isBlank c = false
  outside : ∀ t ∈ ts, ¬ t.span.Covers (p.afterAll (cs.take i))
  uncommented : ¬ InComment cs i

/-- How often the byte at `q` is reported as stray. -/
def strays (fs : List (ScanFault × Span)) (q : Pos) : Nat :=
  fs.countP (fun f => f.1.code = .unexpectedCharacter ∧ f.2 = .point q)

theorem strays_append (fs gs : List (ScanFault × Span)) (q : Pos) :
    strays (fs ++ gs) q = strays fs q + strays gs q :=
  List.countP_append

theorem strays_eq_zero {q : Pos} (h : ∀ f ∈ fs, f.2.start ≠ q) : strays fs q = 0 := by
  refine List.countP_eq_zero.mpr (fun f hf => ?_)
  rw [decide_eq_true_eq]
  rintro ⟨-, hspan⟩
  exact h f hf (congrArg Span.start hspan)

/-- A byte of one step is reported once if it is loose, and not at all otherwise. -/
theorem Step.strays_eq (h : Step p seg rest ts fs) (hi : i < seg.length) :
    (Loose p (seg ++ rest) ts i → strays fs (p.afterAll (seg.take i)) = 1) ∧
      (¬ Loose p (seg ++ rest) ts i → strays fs (p.afterAll (seg.take i)) = 0) := by
  have htake : (seg ++ rest).take i = seg.take i := List.take_append_of_le_length hi.le
  -- A stretch with a token covers all its bytes.
  have hcovered (t : Token) (ht : t ∈ ts) : ¬ Loose p (seg ++ rest) ts i := by
    intro hloose
    refine hloose.outside t ht ?_
    rw [htake]
    exact (h.spans.1 t ht).covers hi
  cases h with
  | @blank c rest hc =>
    obtain rfl : i = 0 := by simpa using hi
    refine ⟨fun hloose => ?_, fun _ => rfl⟩
    have hvisible := hloose.visible c rfl
    rw [hc] at hvisible
    cases hvisible
  | @comment text rest htext hrest =>
    refine ⟨fun hloose => absurd ?_ hloose.uncommented, fun _ => rfl⟩
    refine ⟨0, Nat.zero_le _, rfl, rfl, fun k _ hki hnewline => ?_⟩
    rw [List.getElem?_append_left (by omega)] at hnewline
    have hmem := List.mem_of_getElem? hnewline
    rw [List.mem_cons, List.mem_cons] at hmem
    rcases hmem with hslash | hslash | hmem
    · cases hslash
    · cases hslash
    · exact htext hmem
  | @stray c rest hc hpiece =>
    obtain rfl : i = 0 := by simpa using hi
    have hone : strays [(.stray c, .onLine p 0)] p = 1 := by
      rw [strays, List.countP_singleton]
      exact if_pos (decide_eq_true ⟨rfl, rfl⟩)
    refine ⟨fun _ => hone, fun hloose => absurd ⟨?_, nofun, ?_⟩ hloose⟩
    · rintro d hd
      cases hd
      exact hc
    · rintro ⟨j, hj, hfirst, -⟩
      obtain rfl : j = 0 := by omega
      cases hfirst
      cases hpiece
  | token | tooLarge => exact ⟨fun hloose => absurd hloose (hcovered _ (.head _)), fun _ => rfl⟩

/-- Every byte is reported as stray once if it is loose, and not at all otherwise. -/
theorem Steps.strays_eq (h : Steps p cs ts fs) (hi : i < cs.length) :
    (Loose p cs ts i → strays fs (p.afterAll (cs.take i)) = 1) ∧
      (¬ Loose p cs ts i → strays fs (p.afterAll (cs.take i)) = 0) := by
  induction h generalizing i with
  | done => cases hi
  | @step p seg rest ts us fs gs hstep hrest ih =>
    rw [strays_append]
    by_cases hseg : i < seg.length
    · have htake : (seg ++ rest).take i = seg.take i := List.take_append_of_le_length hseg.le
      have hbefore : p.afterAll (seg.take i) < p.afterAll seg := Pos.afterAll_take_lt p hseg
      have hlater : strays gs (p.afterAll (seg.take i)) = 0 :=
        strays_eq_zero (fun f hf => (hbefore.trans_le (hrest.le_start.2 f hf)).ne')
      have hloose : Loose p (seg ++ rest) (ts ++ us) i ↔ Loose p (seg ++ rest) ts i := by
        constructor
        · intro hloose
          exact ⟨hloose.visible, fun t ht => hloose.outside t (List.mem_append_left _ ht),
            hloose.uncommented⟩
        · intro hloose
          refine ⟨hloose.visible, fun t ht => ?_, hloose.uncommented⟩
          rcases List.mem_append.mp ht with ht | ht
          · exact hloose.outside t ht
          · intro hcovers
            rw [htake] at hcovers
            exact absurd hcovers.1 (not_le.mpr (hbefore.trans_le (hrest.le_start.1 t ht)))
      rw [htake, hlater, hloose]
      exact hstep.strays_eq hseg
    · obtain ⟨i, rfl⟩ := Nat.exists_eq_add_of_le (Nat.le_of_not_lt hseg)
      rw [List.length_append, Nat.add_lt_add_iff_left] at hi
      have htake : p.afterAll ((seg ++ rest).take (seg.length + i)) =
          (p.afterAll seg).afterAll (rest.take i) := by
        rw [List.take_length_add_append, Pos.afterAll_append]
      have hbehind : p.afterAll seg ≤ (p.afterAll seg).afterAll (rest.take i) :=
        Pos.le_afterAll _ _
      have hearlier : strays fs ((p.afterAll seg).afterAll (rest.take i)) = 0 := by
        refine strays_eq_zero (fun f hf => ?_)
        have hspans := hstep.spans.2 f hf
        rw [hspans.start_eq]
        exact ((Pos.lt_afterAll p hspans.nonempty).trans_le hbehind).ne
      have hloose : Loose p (seg ++ rest) (ts ++ us) (seg.length + i) ↔
          Loose (p.afterAll seg) rest us i := by
        have hget : (seg ++ rest)[seg.length + i]? = rest[i]? := by
          rw [List.getElem?_append_right (Nat.le_add_right _ _), Nat.add_sub_cancel_left]
        constructor
        · rintro ⟨hvisible, houtside, huncommented⟩
          rw [hget] at hvisible
          rw [htake] at houtside
          rw [hstep.inComment_iff hi] at huncommented
          exact ⟨hvisible, fun t ht => houtside t (List.mem_append_right _ ht), huncommented⟩
        · rintro ⟨hvisible, houtside, huncommented⟩
          rw [← hget] at hvisible
          rw [← hstep.inComment_iff hi] at huncommented
          refine ⟨hvisible, fun t ht => ?_, huncommented⟩
          rw [htake]
          rcases List.mem_append.mp ht with ht | ht
          · intro hcovers
            exact absurd hcovers.2
              (not_le.mpr ((hstep.spans.1 t ht).stop_lt.trans_le hbehind))
          · exact houtside t ht
      rw [htake, hearlier, hloose, Nat.zero_add]
      exact ih hi

/-- A stray byte is a byte of the text. -/
theorem Steps.exists_byte (h : Steps p cs ts fs) {f : ScanFault × Span} (hf : f ∈ fs)
    (hcode : f.1.code = .unexpectedCharacter) :
    ∃ i < cs.length, f.2 = .point (p.afterAll (cs.take i)) := by
  induction h with
  | done => cases hf
  | @step p seg rest ts us fs gs hstep hrest ih =>
    rcases List.mem_append.mp hf with hf | hf
    · cases hstep with
      | blank | comment | token => cases hf
      | stray =>
        cases List.mem_singleton.mp hf
        exact ⟨0, by simp, rfl⟩
      | tooLarge =>
        cases List.mem_singleton.mp hf
        cases hcode
    · obtain ⟨i, hi, hspan⟩ := ih hf
      refine ⟨seg.length + i, by simpa using hi, ?_⟩
      rw [List.take_length_add_append, Pos.afterAll_append]
      exact hspan

end Scan

/-! ## Reports of scans -/

namespace Scan

variable {r : Scan} {s : Source}

theorem total_report (r : Scan) (s : Source) : (r.report s).total = r.faults.length := by
  rw [report, Report.total_ofList, List.length_map]

theorem kept_report (h : r.faults.length ≤ Report.limit) :
    (r.report s).kept = r.faults.map (fun f => (f.1.diagnostic f.2).withSource s) := by
  rw [report, Report.kept_ofList, List.take_of_length_le (by rwa [List.length_map])]

/-- The codes of the faults with spans in `P`, in order. -/
theorem codes_filter_report (h : r.faults.length ≤ Report.limit) (P : Span → Bool) :
    ((r.report s).kept.filter (fun d => P d.span)).map Diagnostic.code =
      (r.faults.filter (fun f => P f.2)).map (fun f => f.1.code) := by
  rw [kept_report h, List.filter_map, List.map_map]
  rfl

end Scan

/-! ## Every byte of a source -/

namespace Source

/-- The position of byte `i`. -/
def posAt (s : Source) (i : Nat) : Pos := Pos.afterAll ⟨1, 1⟩ (s.bytes.take i)

def delimited (s : Source) (sp : Span) : List Char := sp.cut ⟨1, 1⟩ s.bytes

def excerpt (s : Source) (sp : Span) : Source := ⟨s.name, String.ofList (s.delimited sp)⟩

theorem bytes_excerpt {s : Source} {sp : Span} (h : IsAscii (s.delimited sp)) :
    (s.excerpt sp).bytes = s.delimited sp := by
  rw [bytes, excerpt, String.toList_ofList, h.bytes]

end Source

/-- The token stands on one line, where its bytes stand, and these bytes alone are that token
again; if they are an integer out of range, that is reported once, here and there. -/
structure Token.Exact (s : Source) (r : Report) (t : Token) : Prop where
  notEnd : t.kind ≠ .eof
  line : t.span.stop.line = t.span.start.line
  forward : t.span.start.col ≤ t.span.stop.col
  fits : t.span.stop.line < 2 ^ 32 ∧ t.span.stop.col < 2 ^ 32
  bytes : (s.excerpt t.span).bytes = s.delimited t.span
  length : (s.delimited t.span).length = t.span.stop.col - t.span.start.col + 1
  alone : (Scan.ofSource (s.excerpt t.span)).tokens =
    [⟨t.kind, ⟨⟨1, 1⟩, ⟨1, (s.delimited t.span).length⟩⟩⟩,
      ⟨.eof, .point ⟨1, (s.delimited t.span).length + 1⟩⟩]
  reportedAlone : ((Scan.ofSource (s.excerpt t.span)).report (s.excerpt t.span)).codes =
    if Scan.OutOfRange (s.delimited t.span) then [.integerTooLarge] else []
  reported : (r.kept.filter (fun d => d.span = t.span)).map Diagnostic.code =
    if Scan.OutOfRange (s.delimited t.span) then [.integerTooLarge] else []
  zero : Scan.OutOfRange (s.delimited t.span) → t.kind = .int 0

namespace Scan

/-- A text may be this long to be counted from the start. -/
theorem room_start {n : Nat} (h : n < 2 ^ 32 - 1) : Pos.Room ⟨1, 1⟩ n :=
  ⟨le_rfl, by simp only [positionBound]; omega, by simp only [positionBound]; omega⟩

/-- Every token that the scanner steps over is exact. -/
theorem Steps.exact {s : Source} {ts : List Token} {t : Token} (hsize : s.bytes.length < 2 ^ 32 - 1)
    (hroom : (ofSource s).faults.length < Report.limit)
    (h : Steps ⟨1, 1⟩ s.bytes ts (ofSource s).faults) (ht : t ∈ ts) :
    t.Exact s ((ofSource s).report s) := by
  obtain ⟨before, seg, rest, hbytes, hstep⟩ := h.at_token ht
  have hspans : Spans _ seg t.span := hstep.spans.1 t (.head _)
  have hpos := hspans.length_pos
  have hcut : s.delimited t.span = seg := by
    have hbefore : t.span.cut ⟨1, 1⟩ before = [] := Span.cut_before hspans.start_eq.ge
    rw [Source.delimited, hbytes, Span.cut_append, hbefore, hspans.cut_eq, List.nil_append]
  obtain ⟨hascii, halone, hcodes, hrange, hzero, hend⟩ := hstep.alone ⟨1, 1⟩
  have hexcerpt : (s.excerpt t.span).bytes = seg := by
    rw [Source.bytes_excerpt (hcut ▸ hascii), hcut]
  have hscan : ofSource (s.excerpt t.span) = scanFrom 0 ⟨1, 1⟩ seg := by
    rw [ofSource, hexcerpt]
  -- The bytes before the token and those of the token are bytes of the text.
  have hbounds := Pos.afterAll_bounds ⟨1, 1⟩ le_rfl before
  have hlength := congrArg List.length hbytes
  rw [List.length_append, List.length_append] at hlength
  have hstart := hspans.start_eq
  have hstop : t.span.stop = ⟨t.span.start.line, t.span.start.col + (seg.length - 1)⟩ := by
    rw [hstart]
    exact congrArg Span.stop hspans.eq
  rw [← hstart] at hbounds
  refine
    { notEnd := hend
      line := by rw [hstop]
      forward := by rw [hstop]; exact Nat.le_add_right _ _
      fits := ?_
      bytes := by rw [hexcerpt, hcut]
      length := ?_
      alone := ?_
      reportedAlone := ?_
      reported := ?_
      zero := by rw [hcut]; exact hzero }
  · rw [hstop]
    constructor <;> simp only at hbounds ⊢ <;> omega
  · rw [hcut, hstop]
    simp only
    omega
  · have hseg : seg.length - 1 + 1 = seg.length := Nat.sub_add_cancel hpos
    have hcounts : Counts ⟨1, 1⟩ (seg.length - 1) :=
      counts_of_room (room_start (by rw [hseg]; omega))
    rw [hscan, hcut, halone, hcounts.span, hcounts.stop, Span.onLine]
    simp only [Nat.add_comm 1, hseg]
  · have hfew : (scanFrom 0 ⟨1, 1⟩ seg).faults.length ≤ Report.limit := by
      have hcount := congrArg List.length (hcodes.trans hrange)
      rw [List.length_map] at hcount
      rw [hcount]
      split <;> decide
    rw [hscan, hcut, ← hrange, ← hcodes, Report.codes, kept_report hfew, List.map_map]
    rfl
  · rw [hcut, ← hrange]
    exact codes_filter_report hroom.le (fun sp => sp = t.span)

theorem skipTrivia_spaces {cs : List Char} (n : Nat) {p : Pos} (hp : p.col < positionBound)
    (hcs : skipTrivia false ⟨p.line, counted (p.col + n)⟩ cs =
      (⟨p.line, counted (p.col + n)⟩, cs)) :
    skipTrivia false p (List.replicate n ' ' ++ cs) = (⟨p.line, counted (p.col + n)⟩, cs) := by
  induction n generalizing p with
  | zero =>
    rw [Nat.add_zero, Pos.counted_eq_self hp] at hcs ⊢
    exact hcs
  | succ n ih =>
    have hcol : counted (counted (p.col + 1) + n) = counted (p.col + (n + 1)) := by
      rw [counted, counted, Nat.mod_add_mod, Nat.add_right_comm]
      rfl
    have hlt : counted (p.col + 1) < positionBound := Nat.mod_lt _ (by decide)
    rw [← hcol] at hcs ⊢
    exact ih (p := ⟨p.line, counted (p.col + 1)⟩) hlt hcs

theorem bytes_spaces (name : String) (n : Nat) :
    Source.bytes ⟨name, String.ofList (List.replicate n ' ' ++ ['1'])⟩ =
      List.replicate n ' ' ++ ['1'] := by
  have hascii : IsAscii (List.replicate n ' ' ++ ['1']) := by
    intro c hc
    rcases List.mem_append.mp hc with hc | hc
    · rw [(List.mem_replicate.mp hc).2]
      decide
    · rw [List.mem_singleton.mp hc]
      decide
  rw [Source.bytes, String.toList_ofList, hascii.bytes]

/-- A digit behind `n` blanks, as the counters have it. -/
theorem tokens_behind_spaces (name : String) (n : Nat) :
    (ofSource ⟨name, String.ofList (List.replicate n ' ' ++ ['1'])⟩).tokens =
      [⟨.int 1, ⟨⟨1, counted (n + 1)⟩, ⟨1, max (counted (n + 2) - 1) 1⟩⟩⟩,
        ⟨.eof, .point ⟨1, counted (n + 2)⟩⟩] := by
  have hskip : skipTrivia false ⟨1, 1⟩ (List.replicate n ' ' ++ ['1']) =
      (⟨1, counted (1 + n)⟩, ['1']) := skipTrivia_spaces n (by decide) rfl
  have hend : counted (counted (n + 1) + 0 + 1) = counted (n + 2) := by
    change ((n + 1) % positionBound + 1) % positionBound = (n + 1 + 1) % positionBound
    exact Nat.mod_add_mod _ _ _
  rw [Nat.add_comm 1 n] at hskip
  rw [ofSource, bytes_spaces, scanFrom]
  split
  · rename_i q hq
    cases hskip.symm.trans hq
  · rename_i q c rest hq
    cases hskip.symm.trans hq
    have hpiece : piece '1' [] = .token (.int 1) 0 := by decide
    simp only [hpiece, List.drop_nil, scanFrom_nil, pieceSpan, pieceEnd, hend]
    rfl

/-- Texts cannot be longer: the last token of a text of `2 ^ 32 - 1` bytes can start behind the
place where it stops. -/
theorem exists_token_backwards : ∃ s : Source, s.bytes.length = 2 ^ 32 - 1 ∧
    ∃ t ∈ (ofSource s).tokens, t.kind = .int 1 ∧ t.span.stop < t.span.start := by
  obtain ⟨n, hn⟩ : ∃ n, n + 2 = 2 ^ 32 := ⟨4294967294, rfl⟩
  have hstart : counted (n + 1) = n + 1 := Pos.counted_eq_self (by rw [positionBound]; omega)
  have hstop : counted (n + 2) = 0 := by
    rw [hn]
    rfl
  refine ⟨⟨"", String.ofList (List.replicate n ' ' ++ ['1'])⟩, ?_, ?_⟩
  · rw [bytes_spaces, List.length_append, List.length_replicate, List.length_singleton]
    omega
  · rw [tokens_behind_spaces, hstart, hstop]
    refine ⟨_, .head _, rfl, Pos.lt_iff.mpr (.inr ⟨rfl, ?_⟩)⟩
    show 1 < n + 1
    omega

/-- A text with a reserved word, a stray byte, a comment that is not ASCII, and an integer that
is out of range before a slash at the end. -/
def mixed : Source := ⟨"mixed", "null?:// é\n9223372036854775808/"⟩

end Scan

end Mapling
