import Mapling.Json.Fields
import Mathlib.Tactic

/-! # Reading back what was written

The compact text of a value is read as that value. Strings come back through their escapes, and
integers of 64 bits are never too large. A value ends where its text ends if what follows cannot
belong to a number (`Json.Closed`). -/

namespace Mapling

namespace Json

variable {c : Char} {cs ds rest : List Char} {n : Nat}

theorem skipBlanks_cons (h : isBlank c = false) (cs : List Char) :
    skipBlanks (c :: cs) = c :: cs := by
  rw [skipBlanks, List.dropWhile_cons, h]
  rfl

/-! ## Strings -/

theorem hexValue?_hexDigit : ∀ k < 16, hexValue? (hexDigit k) = some k := by decide

/-- A unit that is no surrogate is a character, whatever follows. -/
theorem spelled?_unit {u : Nat} (hu : u < 32) (ps : List StrPart) :
    spelled? (.unit u :: ps) = (spelled? ps).map (Char.ofNat u :: ·) := by
  have hhigh : isHighSurrogate u = false := by simp [isHighSurrogate]; omega
  have hlow : isLowSurrogate u = false := by simp [isLowSurrogate]; omega
  rcases ps with _ | ⟨_ | _, ps⟩ <;> simp [spelled?, hhigh, hlow]

/-- A character is read from its escape as one part, which spells the character. -/
theorem exists_part (c : Char) : ∃ part,
    (∀ cs, strParts? (escapedChar c ++ cs) = (strParts? cs).map (fun r => (part :: r.1, r.2))) ∧
      ∀ ps, spelled? (part :: ps) = (spelled? ps).map (c :: ·) := by
  have hchar : ∀ {cs}, (∀ ds, strParts? (cs ++ ds) =
      (strParts? ds).map (fun r => (.char c :: r.1, r.2))) → ∃ part,
        (∀ ds, strParts? (cs ++ ds) = (strParts? ds).map (fun r => (part :: r.1, r.2))) ∧
          ∀ ps, spelled? (part :: ps) = (spelled? ps).map (c :: ·) :=
    fun h => ⟨_, h, fun ps => by rw [spelled?]⟩
  unfold escapedChar
  split
  · subst c; exact hchar (fun _ => rfl)
  split
  · subst c; exact hchar (fun _ => rfl)
  split
  · subst c; exact hchar (fun _ => rfl)
  split
  · subst c; exact hchar (fun _ => rfl)
  split
  · subst c; exact hchar (fun _ => rfl)
  split
  · subst c; exact hchar (fun _ => rfl)
  split
  · subst c; exact hchar (fun _ => rfl)
  split
  · rename_i hcontrol
    refine ⟨.unit c.toNat, fun cs => ?_, fun ps => ?_⟩
    · have hhigh := hexValue?_hexDigit (c.toNat / 16) (by omega)
      have hlow := hexValue?_hexDigit (c.toNat % 16) (by omega)
      have hvalue : 0 * 4096 + 0 * 256 + c.toNat / 16 * 16 + c.toNat % 16 = c.toNat := by omega
      simp only [List.cons_append, List.nil_append, strParts?, hhigh, hlow,
        show hexValue? '0' = some 0 from rfl, hvalue]
    · rw [spelled?_unit hcontrol, Char.ofNat_toNat]
  · rename_i hquote hslash _ _ _ _ _ hcontrol
    refine hchar (fun cs => ?_)
    rw [List.singleton_append, strParts?]
    · rw [if_neg (by simp [hcontrol, hslash])]
    · exact hquote
    · exact fun _ _ _ _ _ h => absurd h hslash
    · exact fun _ _ h => absurd h hslash

/-- A string is read from its escapes up to the closing quote. -/
theorem strBody?_quoted (s : String) (rest : List Char) :
    strBody? (s.toList.flatMap escapedChar ++ '"' :: rest) = some (some s, rest) := by
  have hparts : ∀ cs : List Char, ∃ ps,
      strParts? (cs.flatMap escapedChar ++ '"' :: rest) = some (ps, rest) ∧
        spelled? ps = some cs := by
    intro cs
    induction cs with
    | nil => exact ⟨[], rfl, rfl⟩
    | cons c cs ih =>
      obtain ⟨ps, hps, hspelled⟩ := ih
      obtain ⟨part, hpart, hchar⟩ := exists_part c
      refine ⟨part :: ps, ?_, ?_⟩
      · rw [List.flatMap_cons, List.append_assoc, hpart, hps]
        rfl
      · rw [hchar, hspelled]
        rfl
  obtain ⟨ps, hps, hspelled⟩ := hparts s.toList
  rw [strBody?, hps, Option.map_some, hspelled, Option.map_some, String.ofList_toList]

/-! ## Numbers -/

def Closed (rest : List Char) : Prop :=
  ∀ c ∈ rest.head?, c.isDigit = false ∧ c ≠ '.' ∧ c ≠ 'e' ∧ c ≠ 'E'

theorem closed_nil : Closed [] := nofun

theorem closed_cons (hc : c ∈ [',', ']', '\x7d']) (rest : List Char) : Closed (c :: rest) := by
  rintro d ⟨⟩
  simp only [List.mem_cons, List.not_mem_nil, or_false] at hc
  rcases hc with rfl | rfl | rfl <;> decide

theorem nearest_le (n : Nat) (h : n < sizeBound) : nearest n ≤ n + 4096 := by
  have hlog : n.log2 < 64 := by
    rcases Nat.eq_zero_or_pos n with rfl | hn
    · decide
    · exact (Nat.log2_lt hn.ne').mpr h
  rw [nearest]
  generalize hk : n.log2 + 1 - precision = k
  have hsmall : Nat.pow 2 k ≤ 4096 := by
    have hk' : k ≤ 12 := by rw [← hk, precision]; omega
    exact (Nat.pow_le_pow_right (by decide) hk' : 2 ^ k ≤ 2 ^ 12)
  have hround : shiftNearest n k ≤ n / Nat.pow 2 k + 1 := by
    rw [shiftNearest]
    split <;> omega
  calc shiftNearest n k * Nat.pow 2 k ≤ (n / Nat.pow 2 k + 1) * Nat.pow 2 k :=
        Nat.mul_le_mul_right _ hround
    _ = n / Nat.pow 2 k * Nat.pow 2 k + Nat.pow 2 k := Nat.succ_mul _ _
    _ ≤ n + 4096 := Nat.add_le_add (Nat.div_mul_le_self _ _) hsmall

theorem le_ofDigitChars (cs : List Char) (n : Nat) : n ≤ Nat.ofDigitChars 10 cs n := by
  induction cs generalizing n with
  | nil => exact le_rfl
  | cons c cs ih =>
    rw [Nat.ofDigitChars_cons]
    exact le_trans (by omega) (ih _)

/-- An integer that is small enough is taken from all of its digits. -/
theorem leading_eq (h : Nat.ofDigitChars 10 cs n ≤ maxLeading) :
    leading n cs = (Nat.ofDigitChars 10 cs n, []) := by
  induction cs generalizing n with
  | nil => rfl
  | cons c cs ih =>
    rw [Nat.ofDigitChars_cons] at h ⊢
    have hvalue : n * 10 + digitValue c = 10 * n + (c.toNat - '0'.toNat) := by
      rw [Nat.mul_comm]; rfl
    rw [leading, hvalue, if_pos ((le_ofDigitChars _ _).trans h), ih h]

/-- No integer of 64 bits is too large. -/
theorem exceeds_eq_false (h : Nat.ofDigitChars 10 cs 0 < sizeBound) : exceeds cs [] 0 = false := by
  have hone : nearest 1 = 1 := nearest_eq_self (by decide)
  have hle := nearest_le _ h
  have hbound : sizeBound + 4096 < overflowBound := by decide +kernel
  rw [exceeds, leading_eq (Nat.le_of_lt_succ h)]
  generalize Nat.ofDigitChars 10 cs 0 = m at h hle
  have hsmall : nearest m < overflowBound := by omega
  change isTooLarge m (.ofNat 0) = false
  simp [isTooLarge, hone, hsmall, largestPower]

theorem exists_digits (n : Nat) :
    ∃ d ds, Nat.toDigits 10 n = d :: ds ∧ ∀ c ∈ d :: ds, c.isDigit := by
  obtain ⟨d, ds, hds⟩ := List.exists_cons_of_ne_nil (@Nat.toDigits_ne_nil n 10)
  refine ⟨d, ds, hds, fun c hc => ?_⟩
  rw [← hds] at hc
  exact Nat.isDigit_of_mem_toDigits (by decide) (by decide) hc

/-- Only zero starts with the digit zero. -/
theorem head?_toDigits (hn : n ≠ 0) : (Nat.toDigits 10 n).head? ≠ some '0' := by
  induction n using Nat.strongRecOn with
  | ind n ih =>
    by_cases hlt : n < 10
    · rw [Nat.toDigits_of_lt_base hlt]
      interval_cases n <;> first | exact absurd rfl hn | decide
    · rw [Nat.toDigits_of_base_le (by decide) (by omega),
        List.head?_append_of_ne_nil _ Nat.toDigits_ne_nil]
      exact ih _ (by omega) (by omega)

/-- The digits of a number are read as its whole part. -/
theorem wholePart?_toDigits (n : Nat) (hrest : Closed rest) :
    wholePart? (Nat.toDigits 10 n ++ rest) = some (Nat.toDigits 10 n, rest) := by
  by_cases hn : n = 0
  · subst hn
    rfl
  have hhead := head?_toDigits hn
  obtain ⟨d, ds, hds, hdigits⟩ := exists_digits n
  rw [hds] at hhead ⊢
  have hstop : rest.takeWhile Char.isDigit = [] ∧ rest.dropWhile Char.isDigit = rest := by
    cases rest with
    | nil => exact ⟨rfl, rfl⟩
    | cons c rest => simp [(hrest c rfl).1]
  have hread : digits? (d :: ds ++ rest) = some (d :: ds, rest) := by
    rw [digits?, List.takeWhile_append_of_pos hdigits, List.dropWhile_append_of_pos hdigits,
      hstop.1, hstop.2, List.append_nil]
  rw [← hread, wholePart?]
  exact fun _ h => hhead (congrArg some (List.cons.inj h).1)

/-- An integer of 64 bits is read from its digits. -/
theorem unsigned?_toDigits (hn : n < sizeBound) (hrest : Closed rest) :
    unsigned? false (Nat.toDigits 10 n ++ rest) = some (.int n, rest) := by
  have hvalue : Nat.ofDigitChars 10 (Nat.toDigits 10 n) 0 = n :=
    Nat.ofDigitChars_toDigits (by decide) (by decide)
  have hfraction : fraction? rest = some ([], rest) := by
    cases rest with
    | nil => rfl
    | cons c rest =>
      rw [fraction?]
      exact fun _ h => (hrest c rfl).2.1 (List.cons.inj h).1
  have hexponent : exponent? rest = some ([], rest) := by
    cases rest with
    | nil => rfl
    | cons c rest => simp [exponent?, (hrest c rfl).2.2]
  have hexceeds : exceeds (Nat.toDigits 10 n) [] 0 = false := exceeds_eq_false (hvalue.symm ▸ hn)
  simp [unsigned?, wholePart?_toDigits n hrest, hfraction, hexponent, exponentValue, hexceeds,
    hvalue]

/-! ## Values -/

inductive Plain : Json → Prop
  | int {n : Nat} (hn : n < sizeBound) : Plain (.int n)
  | str (s : String) : Plain (.str s)
  | arr {items : List Json} (h : ∀ j ∈ items, Plain j) : Plain (.arr items)
  | obj {members : List (String × Json)} (h : ∀ m ∈ members, Plain m.2) : Plain (.obj members)

variable {j : Json}

theorem chars_int (n : Nat) : (Json.int n).chars = Nat.toDigits 10 n := Nat.toList_repr

theorem isBlank_of_isDigit (h : c.isDigit) : isBlank c = false := by
  by_contra hblank
  simp only [isBlank, Bool.not_eq_false, Bool.or_eq_true, beq_iff_eq] at hblank
  rcases hblank with ((rfl | rfl) | rfl) | rfl <;> exact absurd h (by decide)

/-- The text of a value is read as the value, with a bound beyond its length, and does not start
like the end of an array. -/
structure ReadBack (j : Json) : Prop where
  head : ∃ c cs, j.chars = c :: cs ∧ isBlank c = false ∧ c ≠ ']'
  value : ∀ n rest, j.chars.length < n + 1 → Closed rest →
    value? (n + 1) (j.chars ++ rest) = some (j, rest)

/-- A number within the bound of sizes is read back. -/
theorem ReadBack.int (hn : n < sizeBound) : ReadBack (.int n) := by
  obtain ⟨d, ds, hds, hdigits⟩ := exists_digits n
  have hd : d.isDigit := hdigits d (.head _)
  have hblank := isBlank_of_isDigit hd
  refine ⟨⟨d, ds, (chars_int n).trans hds, hblank, ?_⟩, fun m rest hm hrest => ?_⟩
  · rintro rfl
    exact absurd hd (by decide)
  · have hread := unsigned?_toDigits hn hrest
    rw [hds] at hread
    rw [chars_int, hds, value?, List.cons_append, skipBlanks_cons hblank]
    split
    case h_8 heq =>
      cases heq
      rw [if_pos hd]
      exact hread
    case h_9 heq => cases heq
    all_goals
      rename_i heq
      cases heq
      exact absurd hd (by decide)

theorem ReadBack.str (s : String) : ReadBack (.str s) := by
  refine ⟨⟨'"', _, rfl, by decide, by decide⟩, fun m rest _ _ => ?_⟩
  have hchars : (Json.str s).chars ++ rest =
      '"' :: (s.toList.flatMap escapedChar ++ '"' :: rest) := by simp [chars, quoted]
  rw [hchars, value?, skipBlanks_cons (by decide)]
  simp only [strBody?_quoted]
  rfl

/-- What stands in a row after its first part, each part behind a comma. -/
def laterChars {α : Type} (text : α → List Char) (as : List α) : List Char :=
  as.flatMap (fun a => ',' :: text a)

theorem closed_laterChars {α : Type} (text : α → List Char) (hc : c ∈ [',', ']', '\x7d'])
    (as : List α) (rest : List Char) : Closed (laterChars text as ++ c :: rest) := by
  cases as with
  | nil => exact closed_cons hc _
  | cons a as => exact closed_cons (by decide) _

/-- A reader of rows reads a row whose parts are read. -/
theorem read_laterChars {α β : Type} (close : Char) (hclose : close ∈ [',', ']', '\x7d'])
    (value : α → β) {row : Nat → List Char → Option (List β × List Char)}
    {part : List Char → Option (β × List Char)} {text : α → List Char}
    (hend : ∀ m cs, row (m + 1) (close :: cs) = some ([], cs))
    (hnext : ∀ m cs, row (m + 1) (',' :: cs) =
      (part cs).bind (fun r => (row m r.2).map (fun q => (r.1 :: q.1, q.2))))
    (as : List α)
    (hpart : ∀ a ∈ as, ∀ rest, Closed rest → part (text a ++ rest) = some (value a, rest))
    {m : Nat} (hm : as.length < m) (rest : List Char) :
    row m (laterChars text as ++ close :: rest) = some (as.map value, rest) := by
  induction as generalizing m with
  | nil =>
    obtain ⟨m, rfl⟩ := Nat.exists_eq_succ_of_ne_zero hm.ne'
    exact hend m rest
  | cons a as ih =>
    obtain ⟨m, rfl⟩ := Nat.exists_eq_succ_of_ne_zero (Nat.ne_zero_of_lt hm)
    obtain ⟨ha, has⟩ := List.forall_mem_cons.mp hpart
    have hclosed := closed_laterChars text hclose as rest
    have hsplit : laterChars text (a :: as) ++ close :: rest =
        ',' :: (text a ++ (laterChars text as ++ close :: rest)) := by
      simp [laterChars]
    rw [hsplit, hnext, ha _ hclosed, Option.bind_some, ih has (Nat.lt_of_succ_lt_succ hm)]
    rfl

/-- A row is at least as long as it has parts, and longer than each of them. -/
theorem length_laterChars {α : Type} (text : α → List Char) (as : List α) :
    as.length ≤ (laterChars text as).length ∧
      ∀ a ∈ as, (text a).length < (laterChars text as).length := by
  induction as with
  | nil => exact ⟨le_rfl, nofun⟩
  | cons a as ih =>
    simp only [laterChars, List.flatMap_cons, List.length_append, List.length_cons] at ih ⊢
    refine ⟨by omega, List.forall_mem_cons.mpr ⟨by omega, fun b hb => ?_⟩⟩
    have hb := ih.2 b hb
    omega

theorem itemChars_cons (j : Json) (js : List Json) :
    itemChars (j :: js) = j.chars ++ laterChars chars js := by
  induction js generalizing j with
  | nil => simp [itemChars, laterChars]
  | cons i js ih => simp [itemChars, ih, laterChars]

theorem memberChars_cons (m : String × Json) (ms : List (String × Json)) :
    memberChars (m :: ms) = oneMemberChars m ++ laterChars oneMemberChars ms := by
  induction ms generalizing m with
  | nil => simp [memberChars, laterChars]
  | cons i ms ih => simp [memberChars, ih, laterChars]

theorem items?_laterChars {read : List Char → Option (Json × List Char)} {js : List Json}
    (h : ∀ j ∈ js, ∀ rest, Closed rest → read (j.chars ++ rest) = some (j, rest)) {m : Nat}
    (hm : js.length < m) (rest : List Char) :
    items? read m (laterChars chars js ++ ']' :: rest) = some (js, rest) := by
  refine (read_laterChars ']' (by decide) id (fun m cs => ?_) (fun m cs => ?_) js h hm rest).trans
    (by rw [List.map_id])
  · rw [items?, skipBlanks_cons (by decide)]
    rfl
  · rw [items?, skipBlanks_cons (by decide)]
    simp only [Option.map_eq_bind]
    rfl

theorem members?_laterChars {read : List Char → Option (Json × List Char)}
    {ms : List (String × Json)}
    (h : ∀ a ∈ ms, ∀ rest, Closed rest →
      member? read (oneMemberChars a ++ rest) = some ((some a.1, a.2), rest)) {m : Nat}
    (hm : ms.length < m) (rest : List Char) :
    members? read m (laterChars oneMemberChars ms ++ '\x7d' :: rest) =
      some (ms.map (fun a => (some a.1, a.2)), rest) := by
  refine read_laterChars '\x7d' (by decide) _ (fun m cs => ?_) (fun m cs => ?_) ms h hm rest
  · rw [members?, skipBlanks_cons (by decide)]
    rfl
  · rw [members?, skipBlanks_cons (by decide)]
    simp only [Option.map_eq_bind]
    rfl

/-- An array is read back if its items are. -/
theorem ReadBack.arr {items : List Json} (h : ∀ j ∈ items, ReadBack j) : ReadBack (.arr items) := by
  refine ⟨⟨'[', _, rfl, by decide, by decide⟩, fun m rest hm hrest => ?_⟩
  have hchars : (Json.arr items).chars ++ rest = '[' :: (itemChars items ++ ']' :: rest) := by
    simp [chars]
  rw [hchars, value?, skipBlanks_cons (by decide)]
  cases items with
  | nil => rfl
  | cons j js =>
    obtain ⟨hj, hjs⟩ := List.forall_mem_cons.mp h
    obtain ⟨hcount, hlength⟩ := length_laterChars chars js
    rw [chars, itemChars_cons, List.length_cons, List.length_append, List.length_append] at hm
    obtain ⟨m, rfl⟩ := Nat.exists_eq_succ_of_ne_zero (show m ≠ 0 by omega)
    have hitem : ∀ i ∈ js, ∀ rest, Closed rest →
        value? (m + 1) (i.chars ++ rest) = some (i, rest) := fun i hi rest =>
      (hjs i hi).value m rest (by have := hlength i hi; omega)
    have hlater := items?_laterChars hitem (show js.length < m + 1 by omega) rest
    have hfirst := hj.value m _ (by omega) (closed_laterChars (c := ']') chars (by decide) js rest)
    obtain ⟨c, cs, hc, hblank, hbracket⟩ := hj.head
    have hskip : skipBlanks (itemChars (j :: js) ++ ']' :: rest) =
        itemChars (j :: js) ++ ']' :: rest := by
      rw [itemChars_cons, hc]
      exact skipBlanks_cons hblank _
    simp only [hskip]
    rw [itemChars_cons, List.append_assoc]
    split
    · rename_i heq
      rw [hc] at heq
      exact absurd (List.cons.inj heq).1 hbracket
    · simp only [hfirst]
      change (items? (value? (m + 1)) (m + 1) _).bind _ = _
      rw [hlater]
      rfl

theorem member?_oneMemberChars {read : List Char → Option (Json × List Char)} {a : String × Json}
    (h : ∀ rest, Closed rest → read (a.2.chars ++ rest) = some (a.2, rest)) (hrest : Closed rest) :
    member? read (oneMemberChars a ++ rest) = some ((some a.1, a.2), rest) := by
  have hchars : oneMemberChars a ++ rest =
      '"' :: (a.1.toList.flatMap escapedChar ++ '"' :: ':' :: (a.2.chars ++ rest)) := by
    obtain ⟨key, j⟩ := a
    simp [oneMemberChars, quoted]
  have hcolon : skipBlanks (':' :: (a.2.chars ++ rest)) = ':' :: (a.2.chars ++ rest) :=
    skipBlanks_cons (by decide) _
  rw [hchars, member?, skipBlanks_cons (by decide)]
  simp only [strBody?_quoted, Option.bind_eq_bind, Option.bind_some, hcolon, h rest hrest]
  rfl

theorem ofMembers_map (ms : List (String × Json)) :
    ofMembers (ms.map (fun a => (some a.1, a.2))) = .obj ms := by
  have hms : (ms.map (fun a => (some a.1, a.2))).mapM
      (fun m => m.1.map (fun key => (key, m.2))) = some ms := by
    induction ms with
    | nil => rfl
    | cons a ms ih => simp [ih]
  rw [ofMembers, hms]

/-- An object is read back if its members are. -/
theorem ReadBack.obj {members : List (String × Json)} (h : ∀ a ∈ members, ReadBack a.2) :
    ReadBack (.obj members) := by
  refine ⟨⟨'\x7b', _, rfl, by decide, by decide⟩, fun m rest hm hrest => ?_⟩
  have hchars : (Json.obj members).chars ++ rest =
      '\x7b' :: (memberChars members ++ '\x7d' :: rest) := by simp [chars]
  rw [hchars, value?, skipBlanks_cons (by decide)]
  cases members with
  | nil => rfl
  | cons a as =>
    obtain ⟨ha, has⟩ := List.forall_mem_cons.mp h
    obtain ⟨hcount, hlength⟩ := length_laterChars oneMemberChars as
    rw [chars, memberChars_cons, List.length_cons, List.length_append, List.length_append] at hm
    obtain ⟨m, rfl⟩ := Nat.exists_eq_succ_of_ne_zero (show m ≠ 0 by omega)
    have hmember : ∀ b : String × Json, ReadBack b.2 → (oneMemberChars b).length < m + 1 →
        ∀ rest, Closed rest →
          member? (value? (m + 1)) (oneMemberChars b ++ rest) = some ((some b.1, b.2), rest) := by
      rintro ⟨key, j⟩ hb hlt rest hrest
      refine member?_oneMemberChars (fun rest => hb.value m rest ?_) hrest
      rw [oneMemberChars, List.length_append, List.length_cons] at hlt
      show j.chars.length < m + 1
      omega
    have hlater := members?_laterChars
      (fun b hb => hmember b (has b hb) (by have := hlength b hb; omega))
      (show as.length < m + 1 by omega) rest
    have hfirst := hmember a ha (by omega) _
      (closed_laterChars (c := '\x7d') oneMemberChars (by decide) as rest)
    obtain ⟨cs, hquote⟩ : ∃ cs, memberChars (a :: as) ++ '\x7d' :: rest = '"' :: cs := by
      obtain ⟨key, j⟩ := a
      rw [memberChars_cons]
      exact ⟨_, rfl⟩
    have hskip : skipBlanks (memberChars (a :: as) ++ '\x7d' :: rest) = '"' :: cs := by
      rw [hquote]
      exact skipBlanks_cons (by decide) _
    simp only [hskip]
    rw [memberChars_cons, List.append_assoc, hfirst]
    change (members? (value? (m + 1)) (m + 1) _).bind _ = _
    rw [hlater, Option.bind_some]
    exact congrArg (fun j => some (j, rest)) (ofMembers_map (a :: as))

/-- The text of a plain value is read as that value. -/
theorem Plain.readBack (h : Plain j) : ReadBack j := by
  induction h with
  | int hn => exact .int hn
  | str s => exact .str s
  | arr _ ih => exact .arr ih
  | obj _ ih => exact .obj ih

theorem read?_text (h : Plain j) : Json.read? j.text = some j := by
  have hread := h.readBack.value j.chars.length [] (Nat.lt_succ_self _) closed_nil
  rw [List.append_nil] at hread
  rw [Json.read?, text, String.toList_ofList, hread]
  rfl

end Json

end Mapling
