import Mapling.Proofs.Syntax.Positions
import Mapling.Proofs.Syntax.RoundTrip

/-! # Reading a text in stretches

A scan reads a text in stretches (`Scan.Step`): a blank, a comment, a stray byte, a token, or an
integer that is too large. A token's bytes are read as the same token when they stand alone
(`Scan.Lexeme`), and a scan with fewer faults than a report keeps, of a text that its counters have
room for, reads the text stretch by stretch to its end (`Scan.reads_scanFrom`). -/

namespace Mapling

namespace Scan

variable {p q : Pos} {c d : Char} {cs ds seg more rest : List Char} {k : TokenKind} {n i : Nat}

/-! ## Texts of single tokens -/

/-- The bytes `c` and `more` are one piece of text: read alone they are the piece `what`, they are
ASCII and on one line, and a slash stands alone. -/
structure Lexeme (c : Char) (more : List Char) (what : Piece) : Prop where
  alone : piece c more = what
  ascii : IsAscii (c :: more)
  line : '\n' ∉ c :: more
  slash : '/' ∈ c :: more → c = '/' ∧ more = []

/-- With `c` the first `n` bytes of `cs` are a piece of text. -/
def Begins (c : Char) (cs : List Char) (n : Nat) (what : Piece) : Prop :=
  ∃ more rest, cs = more ++ rest ∧ more.length = n ∧ Lexeme c more what

theorem isWordChar_of_isDigit (hc : c.isDigit) : isWordChar c := by
  simp [isWordChar, Char.isAlphanum, hc]

theorem isWordChar_of_isWordStart (hc : isWordStart c) : isWordChar c := by
  simp only [isWordStart, Bool.or_eq_true] at hc
  simp only [isWordChar, Char.isAlphanum, Bool.or_eq_true]
  exact hc.imp_left .inl

variable {what : Piece} {r : Scan}

/-- A piece all of whose bytes could stand in a word, or are a question mark. -/
theorem Lexeme.of_word (halone : piece c more = what)
    (hchars : ∀ d ∈ c :: more, isWordChar d ∨ d = '?') : Lexeme c more what where
  alone := halone
  ascii d hd := by
    rcases hchars d hd with h | rfl
    · exact toNat_lt_of_isWordChar h
    · decide
  line h := absurd (hchars _ h) (by decide)
  slash h := absurd (hchars _ h) (by decide)

theorem takeWhile_takeWhile_self (f : Char → Bool) (cs : List Char) :
    (cs.takeWhile f).takeWhile f = cs.takeWhile f :=
  List.takeWhile_eq_self_iff.mpr (fun _ hd => List.mem_takeWhile_imp hd)

theorem forall_mem_cons_takeWhile {f : Char → Bool} (hc : f c) :
    ∀ d ∈ c :: cs.takeWhile f, f d := by
  intro d hd
  rcases List.mem_cons.mp hd with rfl | hd
  · exact hc
  · exact List.mem_takeWhile_imp hd

/-- An integer is read from its digits alone. -/
theorem lexeme_integer (hc : c.isDigit) (cs : List Char) :
    Lexeme c (cs.takeWhile Char.isDigit) (integer c cs) := by
  refine .of_word ?_ (fun d hd => ?_)
  · rw [piece_integer hc, integer, takeWhile_takeWhile_self]
    rfl
  · exact .inl (isWordChar_of_isDigit (forall_mem_cons_takeWhile hc d hd))

/-- A word is read from its letters alone, or with the question mark that belongs to it. -/
theorem begins_word (hc : isWordStart c) (h : word c cs = .token k n) :
    Begins c cs n (.token k n) := by
  have hchars : ∀ d ∈ c :: cs.takeWhile isWordChar, isWordChar d :=
    forall_mem_cons_takeWhile (isWordChar_of_isWordStart hc)
  have hsplit : cs = cs.takeWhile isWordChar ++ cs.drop (cs.takeWhile isWordChar).length :=
    (List.prefix_append_drop (List.takeWhile_prefix _))
  have hplain : Begins c cs (cs.takeWhile isWordChar).length
      (.token (.ofWord (String.ofList (c :: cs.takeWhile isWordChar)))
        (cs.takeWhile isWordChar).length) := by
    refine ⟨_, _, hsplit, rfl, .of_word ?_ (fun d hd => .inl (hchars d hd))⟩
    rw [piece_word hc, word, takeWhile_takeWhile_self]
    simp
  simp only [word] at h
  split at h
  case isFalse =>
    cases h
    exact hplain
  case isTrue hmark =>
    split at h
    case h_2 =>
      cases h
      exact hplain
    case h_1 kind hkind =>
      cases h
      rw [beq_iff_eq, List.head?_eq_some_iff] at hmark
      obtain ⟨after, hafter⟩ := hmark
      rw [hafter] at hsplit
      generalize cs.takeWhile isWordChar = more at *
      refine ⟨more ++ ['?'], after, by simpa using hsplit, by simp, .of_word ?_ (fun d hd => ?_)⟩
      · have hmore : (more ++ ['?']).takeWhile isWordChar = more := by
          rw [List.takeWhile_append_of_pos (fun d hd => hchars d (.tail _ hd))]
          simp [show isWordChar '?' = false by decide]
        rw [piece_word hc, word, hmore]
        simp only [List.drop_left, List.head?_cons, beq_self_eq_true, if_true, hkind]
      · rw [← List.cons_append, List.mem_append, List.mem_singleton] at hd
        exact hd.imp_left (hchars d)

theorem Begins.one (halone : piece c [] = what) (hc : c.toNat < 128 ∧ c ≠ '\n') :
    Begins c cs 0 what := by
  refine ⟨[], cs, rfl, rfl, halone, by simpa using hc.1, by simpa using hc.2.symm, fun h => ?_⟩
  exact ⟨(List.mem_singleton.mp h).symm, rfl⟩

theorem Begins.two (hhead : cs.head? = some d) (halone : piece c [d] = what)
    (hc : c.toNat < 128 ∧ c ≠ '\n' ∧ c ≠ '/') (hd : d.toNat < 128 ∧ d ≠ '\n' ∧ d ≠ '/') :
    Begins c cs 1 what := by
  obtain ⟨after, rfl⟩ := List.head?_eq_some_iff.mp hhead
  have hboth : ∀ e ∈ [c, d], e.toNat < 128 ∧ e ≠ '\n' ∧ e ≠ '/' :=
    List.forall_mem_cons.mpr ⟨hc, List.forall_mem_singleton.mpr hd⟩
  refine ⟨[d], after, rfl, rfl, halone, fun e he => (hboth e he).1,
    fun h => (hboth _ h).2.1 rfl, ?_⟩
  exact fun h => absurd rfl (hboth _ h).2.2

theorem begins_oneOrTwo {two one : Mark} (htwo : piece c [d] = .token (.mark two) 1)
    (hone : piece c [] = .token (.mark one) 0)
    (hc : c.toNat < 128 ∧ c ≠ '\n' ∧ c ≠ '/') (hd : d.toNat < 128 ∧ d ≠ '\n' ∧ d ≠ '/')
    (h : oneOrTwo d two one cs = .token k n) : Begins c cs n (.token k n) := by
  rw [oneOrTwo] at h
  split at h
  case isTrue hhead =>
    cases h
    exact .two (beq_iff_eq.mp hhead) htwo hc hd
  case isFalse =>
    cases h
    exact .one hone ⟨hc.1, hc.2.1⟩

/-- A mark is read from its one byte, or its two. -/
theorem begins_mark (hdigit : c.isDigit = false) (hstart : isWordStart c = false)
    (h : piece c cs = .token k n) : Begins c cs n (.token k n) := by
  unfold piece at h
  rw [if_neg (by simp [hdigit]), if_neg (by simp [hstart])] at h
  split at h
  case h_15 | h_16 => exact begins_oneOrTwo rfl rfl (by decide) (by decide) h
  case h_17 =>
    split at h
    case isTrue hhead =>
      cases h
      exact .two (beq_iff_eq.mp hhead) rfl (by decide) (by decide)
    case isFalse => exact begins_oneOrTwo rfl rfl (by decide) (by decide) h
  case h_18 =>
    split at h
    case isTrue hhead =>
      cases h
      exact .two (beq_iff_eq.mp hhead) rfl (by decide) (by decide)
    case isFalse => cases h
  case h_19 => cases h
  all_goals
    cases h
    exact .one rfl (by decide)

theorem begins_of_token (h : piece c cs = .token k n) : Begins c cs n (.token k n) := by
  by_cases hdigit : c.isDigit
  · have hlexeme := lexeme_integer hdigit cs
    rw [piece_integer hdigit] at h
    rw [h] at hlexeme
    simp only [integer] at h
    split at h
    · cases h
      exact ⟨_, _, List.takeWhile_append_dropWhile.symm, rfl, hlexeme⟩
    · cases h
  · by_cases hstart : isWordStart c
    · rw [piece_word hstart] at h
      exact begins_word hstart h
    · exact begins_mark (by simpa using hdigit) (by simpa using hstart) h

/-- Nothing but a digit starts an integer. -/
theorem isDigit_of_tooLarge (h : piece c cs = .tooLarge ds) : c.isDigit := by
  by_contra hdigit
  unfold piece at h
  rw [if_neg hdigit] at h
  simp only [word, oneOrTwo] at h
  split at h <;> (try split at h) <;> (try split at h) <;> (try split at h) <;> cases h

theorem exists_lexeme_of_tooLarge (h : piece c cs = .tooLarge ds) :
    ∃ more rest, cs = more ++ rest ∧ ds = c :: more ∧ Lexeme c more (.tooLarge ds) := by
  have hdigit := isDigit_of_tooLarge h
  have hlexeme := lexeme_integer hdigit cs
  rw [piece_integer hdigit] at h
  rw [h] at hlexeme
  simp only [integer] at h
  split at h
  · cases h
  · cases h
    exact ⟨_, _, List.takeWhile_append_dropWhile.symm, rfl, hlexeme⟩

/-- Where the bytes of a token are known. -/
theorem lexeme_of_token (h : piece c (more ++ rest) = .token k more.length) :
    Lexeme c more (.token k more.length) := by
  obtain ⟨more', rest', hsplit, hlength, hlexeme⟩ := begins_of_token h
  cases List.append_inj_left hsplit hlength.symm
  exact hlexeme

theorem lexeme_of_tooLarge (h : piece c (more ++ rest) = .tooLarge (c :: more)) :
    Lexeme c more (.tooLarge (c :: more)) := by
  obtain ⟨more', rest', -, hdigits, hlexeme⟩ := exists_lexeme_of_tooLarge h
  cases hdigits
  exact hlexeme

/-! ## Reading a text in stretches -/

/-- From the position `p` the stretch `seg`, which `rest` follows, is read at once as the tokens
`ts` and the faults `fs`. -/
inductive Step (p : Pos) :
    List Char → List Char → List Token → List (ScanFault × Span) → Prop
  | blank {c : Char} {rest : List Char} (hc : isBlank c) : Step p [c] rest [] []
  | comment {text rest : List Char} (htext : '\n' ∉ text) (hrest : ∀ d ∈ rest.head?, d = '\n') :
      Step p ('/' :: '/' :: text) rest [] []
  | stray {c : Char} {rest : List Char} (hc : isBlank c = false) (h : piece c rest = .stray) :
      Step p [c] rest [] [(.stray c, .onLine p 0)]
  | token {c : Char} {more rest : List Char} {k : TokenKind} (hc : isBlank c = false)
      (hcomment : c = '/' → (more ++ rest).head? ≠ some '/')
      (h : piece c (more ++ rest) = .token k more.length) :
      Step p (c :: more) rest [⟨k, .onLine p more.length⟩] []
  | tooLarge {c : Char} {more rest : List Char} (hc : isBlank c = false)
      (h : piece c (more ++ rest) = .tooLarge (c :: more)) :
      Step p (c :: more) rest [⟨.int 0, .onLine p more.length⟩]
        [(.tooLarge (String.ofList (c :: more)), .onLine p more.length)]

/-- From the position `p` the text is read to its end, stretch by stretch, as the tokens `ts` and
the faults `fs`. -/
inductive Steps : Pos → List Char → List Token → List (ScanFault × Span) → Prop
  | done (p : Pos) : Steps p [] [] []
  | step {p : Pos} {seg rest : List Char} {ts us : List Token} {fs gs : List (ScanFault × Span)}
      (hstep : Step p seg rest ts fs) (hrest : Steps (p.afterAll seg) rest us gs) :
      Steps p (seg ++ rest) (ts ++ us) (fs ++ gs)

variable {ts us : List Token} {fs gs : List (ScanFault × Span)}

/-- A comment takes the rest of the line; the newline after it is a blank. -/
theorem skipTrivia_comment (h : p.Room cs.length) :
    skipTrivia true p cs =
      skipTrivia false (p.afterAll (cs.takeWhile (· != '\n'))) (cs.dropWhile (· != '\n')) := by
  induction cs generalizing p with
  | nil => rfl
  | cons c cs ih =>
    by_cases hc : c = '\n'
    · subst hc
      rfl
    · have hkeep : (c != '\n') = true := by simpa using hc
      obtain ⟨hadvance, hroom⟩ := h.advance_eq c
      rw [List.takeWhile_cons, List.dropWhile_cons, if_pos hkeep, if_pos hkeep,
        Pos.afterAll_cons, ← ih hroom, skipTrivia, hkeep, hadvance]

/-- Blanks and comments in front are steps without tokens. -/
theorem Steps.of_skipTrivia (hroom : p.Room cs.length) (h : skipTrivia false p cs = (q, rest))
    (hrest : Steps q rest ts fs) : Steps p cs ts fs := by
  induction hlength : cs.length using Nat.strongRecOn generalizing p cs with
  | ind m ih =>
    cases cs with
    | nil =>
      cases h
      exact hrest
    | cons c cs =>
      obtain ⟨hadvance, hlater⟩ := hroom.advance_eq c
      rw [List.length_cons] at hlength
      rw [skipTrivia, hadvance] at h
      split at h
      case isTrue hblank =>
        have hstep : Step p [c] cs [] [] := .blank hblank
        exact .step hstep (ih cs.length (by omega) hlater h rfl)
      case isFalse hblank =>
        split at h
        case isFalse =>
          cases h
          exact hrest
        case isTrue hcomment =>
          simp only [Bool.and_eq_true, beq_iff_eq, List.head?_eq_some_iff] at hcomment
          obtain ⟨rfl, after, rfl⟩ := hcomment
          rw [skipTrivia_comment hlater, List.takeWhile_cons, List.dropWhile_cons,
            if_pos (by decide), if_pos (by decide)] at h
          have hsplit : after = after.takeWhile (· != '\n') ++ after.dropWhile (· != '\n') :=
            List.takeWhile_append_dropWhile.symm
          have hshort := congrArg List.length hsplit
          rw [List.length_append] at hshort
          rw [List.length_cons] at hlength
          have hroom' : (p.afterAll ('/' :: '/' :: after.takeWhile (· != '\n'))).Room
              (after.dropWhile (· != '\n')).length :=
            Pos.Room.afterAll (hroom.mono (by simp only [List.length_cons]; omega))
          have hsteps := ih _ (by omega) hroom' h rfl
          rw [hsplit]
          have hstep : Step p ('/' :: '/' :: after.takeWhile (· != '\n'))
              (after.dropWhile (· != '\n')) [] [] := by
            refine .comment (fun hmem => ?_) (fun d hd => ?_)
            · exact absurd (List.mem_takeWhile_imp hmem) (by decide)
            · have hnot := List.head?_dropWhile_not (· != '\n') after
              rw [hd] at hnot
              simpa using hnot
          exact .step hstep hsteps

/-- What is not skipped starts neither a blank nor a comment. -/
theorem skipTrivia_stops {b : Bool} (h : skipTrivia b p cs = (q, c :: rest)) :
    isBlank c = false ∧ (c = '/' → rest.head? ≠ some '/') := by
  induction cs generalizing b p with
  | nil => cases b <;> cases h
  | cons d cs ih =>
    cases b with
    | true => exact ih h
    | false =>
      rw [skipTrivia] at h
      split at h
      case isTrue => exact ih h
      case isFalse hblank =>
        split at h
        case isTrue => exact ih h
        case isFalse hcomment =>
          cases h
          exact ⟨by simpa using hblank, by simpa using hcomment⟩

/-- What is left stands behind what is skipped. -/
theorem exists_skipped {b : Bool} (hroom : p.Room cs.length)
    (h : skipTrivia b p cs = (q, rest)) :
    ∃ pre, cs = pre ++ rest ∧ q = p.afterAll pre := by
  induction cs generalizing b p with
  | nil => cases b <;> cases h <;> exact ⟨[], rfl, rfl⟩
  | cons c cs ih =>
    have hcons : ∀ {b}, skipTrivia b (p.advance c) cs = (q, rest) →
        ∃ pre, c :: cs = pre ++ rest ∧ q = p.afterAll pre := by
      intro b h
      obtain ⟨hadvance, hlater⟩ := hroom.advance_eq c
      rw [hadvance] at h
      obtain ⟨pre, hcs, hpos⟩ := ih hlater h
      exact ⟨c :: pre, congrArg (c :: ·) hcs, hpos⟩
    cases b with
    | true => exact hcons h
    | false =>
      rw [skipTrivia] at h
      split at h
      · exact hcons h
      · split at h
        · exact hcons h
        · cases h
          exact ⟨[], rfl, rfl⟩

theorem room_of_skipTrivia {b : Bool} (hroom : p.Room cs.length)
    (h : skipTrivia b p cs = (q, rest)) : q.Room rest.length := by
  obtain ⟨pre, rfl, rfl⟩ := exists_skipped hroom h
  rw [List.length_append] at hroom
  exact hroom.afterAll

/-- The scan `r` is what the text is read as, to its end. -/
def Reads (p : Pos) (cs : List Char) (r : Scan) : Prop :=
  ∃ ts, r.tokens = ts ++ [⟨.eof, .point (p.afterAll cs)⟩] ∧ Steps p cs ts r.faults

theorem Reads.of_skipTrivia (hroom : p.Room cs.length) (h : skipTrivia false p cs = (q, rest))
    (hrest : Reads q rest r) : Reads p cs r := by
  obtain ⟨ts, htokens, hsteps⟩ := hrest
  obtain ⟨pre, hcs, hpos⟩ := exists_skipped hroom h
  rw [hpos, ← Pos.afterAll_append, ← hcs] at htokens
  exact ⟨ts, htokens, hsteps.of_skipTrivia hroom h⟩

theorem Reads.step (hstep : Step p seg rest ts fs) (hrest : Reads (p.afterAll seg) rest r) :
    Reads p (seg ++ rest) ⟨ts ++ r.tokens, fs ++ r.faults⟩ := by
  obtain ⟨us, htokens, hsteps⟩ := hrest
  refine ⟨ts ++ us, ?_, .step hstep hsteps⟩
  rw [htokens, Pos.afterAll_append, List.append_assoc]

/-- Where a piece ends and which spans it gets, if the counters have room for it. -/
structure Counts (p : Pos) (extra : Nat) : Prop where
  stop : pieceEnd p extra = ⟨p.line, p.col + extra + 1⟩
  span : pieceSpan p extra = .onLine p extra
  digits : digitsSpan p extra = .onLine p extra

/-- Where there is room the positions are counted without wrapping. -/
theorem counts_of_room {extra : Nat} (h : p.Room (extra + 1)) : Counts p extra := by
  obtain ⟨hpos, -, hcol⟩ := h
  have hstop : pieceEnd p extra = ⟨p.line, p.col + extra + 1⟩ := by
    rw [pieceEnd, Pos.counted_eq_self (by omega)]
  -- counting back from the end passes the bound once
  have hback : ∀ k ≤ p.col + extra + 1, k < positionBound →
      counted (p.col + extra + 1 + positionBound - counted k) = p.col + extra + 1 - k := by
    intro k hk hbound
    rw [Pos.counted_eq_self hbound, counted, Nat.sub_add_comm hk, Nat.add_mod_right]
    exact Nat.mod_eq_of_lt (by omega)
  refine ⟨hstop, ?_, ?_⟩
  · rw [pieceSpan, hstop, Span.onLine, Nat.add_sub_cancel, Nat.max_eq_left (by omega)]
  · have hfirst := hback (extra + 1) (by omega) (by omega)
    have hlast := hback 1 (by omega) (by omega)
    simp only [digitsSpan, hstop, Span.onLine, hfirst, hlast]
    rw [Nat.add_sub_cancel, Nat.add_assoc, Nat.add_sub_cancel]

structure Behind (p : Pos) (cs : List Char) (q : Pos) (c : Char) (more rest : List Char) :
    Prop where
  skip : skipTrivia false p cs = (q, c :: (more ++ rest))
  room : p.Room cs.length
  line : '\n' ∉ c :: more

theorem Behind.counts (h : Behind p cs q c more rest) : Counts q more.length := by
  refine counts_of_room ((room_of_skipTrivia h.room h.skip).mono ?_)
  simp only [List.length_cons, List.length_append]
  omega

theorem Behind.pieceEnd_eq (h : Behind p cs q c more rest) :
    pieceEnd q more.length = q.afterAll (c :: more) := by
  rw [h.counts.stop, Pos.afterAll_of_line q h.line, List.length_cons, Nat.add_assoc]

theorem Behind.room_end (h : Behind p cs q c more rest) :
    (pieceEnd q more.length).Room rest.length := by
  have hroom := room_of_skipTrivia h.room h.skip
  rw [← List.cons_append, List.length_append] at hroom
  rw [h.pieceEnd_eq]
  exact hroom.afterAll

theorem Reads.piece (h : Behind p cs q c more rest) (hstep : Step q (c :: more) rest ts fs)
    (hrest : Reads (pieceEnd q more.length) rest r) :
    Reads p cs ⟨ts ++ r.tokens, fs ++ r.faults⟩ := by
  rw [h.pieceEnd_eq] at hrest
  exact (Reads.step hstep hrest).of_skipTrivia h.room h.skip

/-- A byte that is no blank is no newline. -/
theorem line_of_visible (h : isBlank c = false) : '\n' ∉ [c] := by
  intro hmem
  rw [← List.mem_singleton.mp hmem] at h
  cases h

/-- With room in the counters and in the report, a text is read to its end. -/
theorem reads_scanFrom (n : Nat) (p : Pos) (cs : List Char) (hroom : p.Room cs.length)
    (h : n + (scanFrom n p cs).faults.length < Report.limit) : Reads p cs (scanFrom n p cs) := by
  fun_induction scanFrom n p cs with
  | case1 n p cs q hskip => exact .of_skipTrivia hroom hskip ⟨[], rfl, .done q⟩
  | case2 n p cs q c rest hskip hpiece later ih =>
    have hblank := (skipTrivia_stops hskip).1
    have hbehind : Behind p cs q c [] rest := ⟨hskip, hroom, line_of_visible hblank⟩
    have hlater : Reads (pieceEnd q 0) rest later := by
      refine ih hbehind.room_end ?_
      change n + (later.faults.length + 1) < Report.limit at h
      change n + 1 + later.faults.length < Report.limit
      omega
    have hstep : Step q [c] rest [] [(.stray c, .onLine q 0)] := .stray hblank hpiece
    have hspan : pieceSpan q 0 = .onLine q 0 := hbehind.counts.span
    rw [hspan]
    exact .piece hbehind hstep hlater
  | case3 n p cs q c rest hskip k extra hpiece later ih =>
    obtain ⟨hblank, hcomment⟩ := skipTrivia_stops hskip
    obtain ⟨more, rest, rfl, rfl, hlexeme⟩ := begins_of_token hpiece
    have hbehind : Behind p cs q c more rest := ⟨hskip, hroom, hlexeme.line⟩
    have hfew : ¬ Report.limit ≤ n := by
      change n + later.faults.length < Report.limit at h
      omega
    have hlater : Reads (pieceEnd q more.length) rest later := by
      simp only [later, dif_neg hfew, List.drop_left] at h ih ⊢
      exact ih hbehind.room_end h
    rw [hbehind.counts.span]
    exact .piece hbehind (.token hblank hcomment hpiece) hlater
  | case4 n p cs q c rest hskip digits hpiece extra later ih =>
    have hblank := (skipTrivia_stops hskip).1
    obtain ⟨more, rest, rfl, rfl, hlexeme⟩ := exists_lexeme_of_tooLarge hpiece
    have hbehind : Behind p cs q c more rest := ⟨hskip, hroom, hlexeme.line⟩
    change n + (later.faults.length + 1) < Report.limit at h
    have hfew : ¬ Report.limit ≤ n + 1 := by omega
    have hlater : Reads (pieceEnd q more.length) rest later := by
      simp only [later, extra, dif_neg hfew, List.length_cons, Nat.add_sub_cancel,
        List.drop_left] at h ih ⊢
      exact ih hbehind.room_end (by omega)
    simp only [extra, List.length_cons, Nat.add_sub_cancel]
    rw [hbehind.counts.span, hbehind.counts.digits]
    exact .piece hbehind (.tooLarge hblank hpiece) hlater

end Scan

end Mapling
