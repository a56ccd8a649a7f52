import Mapling.Program
import Mapling.Proofs.Scope.Reporting
import Mapling.Proofs.Syntax.Nesting
import Mapling.Proofs.Syntax.Stopping

/-! # Where diagnostics point

The scanner counts lines and columns in bytes as it goes, and the line that is shown with an error
is looked up in the characters of the text. Both are the same: the position of a byte is on the
line that the byte stands on, at most one column behind the line's last byte, and every error of a
source is at the position of a byte or at the end of the text.

Main statement: `compile_error_points`. -/

namespace Mapling

/-! ## Lines -/

/-- Line `n` of the text, counted from one: there are `n - 1` newlines before it, and none in it,
and it runs from one newline to the next or to the ends of the text. -/
def IsLine (cs : List Char) (n : Nat) (line : List Char) : Prop :=
  ∃ before after, cs = before ++ (line ++ after) ∧ before.count '\n' + 1 = n ∧ '\n' ∉ line ∧
    (∀ c ∈ before.getLast?, c = '\n') ∧ ∀ c ∈ after.head?, c = '\n'

variable {cs ds line : List Char} {n : Nat} {p q : Pos}

theorem IsLine.le_count (h : IsLine cs n line) : n ≤ cs.count '\n' + 1 := by
  obtain ⟨before, after, rfl, rfl, -⟩ := h
  simp

theorem splitLines_cons {c : Char} (hc : c ≠ '\n') (cs : List Char) :
    ∃ l ls, splitLines cs = l :: ls ∧ splitLines (c :: cs) = (c :: l) :: ls := by
  have hne : splitLines cs ≠ [] := by
    cases cs with
    | nil => exact List.cons_ne_nil _ _
    | cons d ds =>
      rw [splitLines]
      split
      · exact List.cons_ne_nil _ _
      · split <;> exact List.cons_ne_nil _ _
  obtain ⟨l, ls, hls⟩ := List.exists_cons_of_ne_nil hne
  exact ⟨l, ls, hls, by rw [splitLines, if_neg hc, hls]⟩

theorem splitLines_newline (cs : List Char) : splitLines ('\n' :: cs) = [] :: splitLines cs :=
  if_pos rfl

/-- What the text is split into are its lines. -/
theorem isLine_of_splitLines (h : (splitLines cs)[n]? = some line) : IsLine cs (n + 1) line := by
  induction cs generalizing n line with
  | nil =>
    cases n with
    | zero =>
      cases h
      exact ⟨[], [], rfl, rfl, nofun, nofun, nofun⟩
    | succ n => cases h
  | cons c cs ih =>
    by_cases hc : c = '\n'
    · subst hc
      rw [splitLines_newline] at h
      cases n with
      | zero =>
        cases h
        exact ⟨[], '\n' :: cs, rfl, rfl, nofun, nofun, by simp⟩
      | succ n =>
        obtain ⟨before, after, rfl, hcount, hline, hlast, hhead⟩ := ih h
        refine ⟨'\n' :: before, after, rfl, ?_, hline, ?_, hhead⟩
        · rw [List.count_cons_self, hcount]
        · cases before with
          | nil => simp
          | cons d before => simpa using hlast
    · obtain ⟨l, ls, hls, hcons⟩ := splitLines_cons hc cs
      rw [hcons] at h
      rw [hls] at ih
      cases n with
      | zero =>
        cases h
        obtain ⟨before, after, rfl, hcount, hline, hlast, hhead⟩ := @ih l 0 rfl
        -- A text that ends with a newline has one, so nothing stands before the first line.
        obtain rfl : before = [] := by
          rcases List.eq_nil_or_concat' before with hnil | ⟨ds, d, rfl⟩
          · exact hnil
          · rw [List.getLast?_concat] at hlast
            simp [hlast d rfl] at hcount
        exact ⟨[], after, rfl, rfl, by simp [hline, Ne.symm hc], nofun, hhead⟩
      | succ n =>
        obtain ⟨before, after, rfl, hcount, hline, hlast, hhead⟩ := @ih line (n + 1) h
        refine ⟨c :: before, after, rfl, ?_, hline, ?_, hhead⟩
        · rw [List.count_cons_of_ne hc, hcount]
        · cases before with
          | nil => simp at hcount
          | cons d before => simpa using hlast

/-- What is cut off a line are carriage returns, all that it ends with. -/
theorem exists_returns (line : List Char) :
    ∃ k, line = trimReturns line ++ List.replicate k '\r' ∧
      (trimReturns line).getLast? ≠ some '\r' := by
  have hsplit : line.rdropWhile (· == '\r') ++ line.rtakeWhile (· == '\r') = line :=
    List.rdropWhile_append_rtakeWhile
  have hreturns : ∀ c ∈ line.rtakeWhile (· == '\r'), c = '\r' := fun c hc =>
    by simpa using List.mem_rtakeWhile_imp hc
  refine ⟨_, hsplit.symm.trans (congrArg _ (List.eq_replicate_of_mem hreturns)), fun hlast => ?_⟩
  obtain ⟨ds, hds⟩ := List.getLast?_eq_some_iff.mp hlast
  change line.rdropWhile (· == '\r') = _ at hds
  exact List.rdropWhile_last_not (· == '\r') line (by simp [hds]) (by simp [hds])

/-! ## Positions on lines -/

/-- The position behind some bytes of a text is on one of its lines, and at most one column behind
the end of the line. -/
theorem exists_line_afterAll (p : Pos) (cs ds : List Char) :
    ∃ line, (splitLines (cs ++ ds))[(p.afterAll cs).line - p.line]? = some line ∧
      p.line ≤ (p.afterAll cs).line ∧
      (p.afterAll cs).col ≤ (if (p.afterAll cs).line = p.line then p.col else 1) + line.length := by
  induction cs generalizing p with
  | nil =>
    obtain ⟨l, ls, hls, -⟩ := splitLines_cons (c := ' ') (by decide) ds
    refine ⟨l, ?_, le_rfl, ?_⟩ <;> simp [hls]
  | cons c cs ih =>
    obtain ⟨line, hget, hle, hcol⟩ := ih (p.after c)
    rw [Pos.afterAll_cons, List.cons_append]
    by_cases hc : c = '\n'
    · subst hc
      change p.line + 1 ≤ _ at hle
      have hsub : ((p.after '\n').afterAll cs).line - p.line =
          ((p.after '\n').afterAll cs).line - (p.after '\n').line + 1 := by
        change _ = _ - (p.line + 1) + 1
        omega
      refine ⟨line, by rw [splitLines_newline, hsub]; exact hget, by omega, ?_⟩
      rw [if_neg (by omega)]
      exact hcol.trans (by split <;> exact le_rfl)
    · obtain ⟨l, ls, hls, hcons⟩ := splitLines_cons hc (cs ++ ds)
      have hafter : p.after c = ⟨p.line, p.col + 1⟩ := if_neg hc
      rw [hafter] at hget hle hcol ⊢
      generalize (Pos.mk p.line (p.col + 1)).afterAll cs = q at hget hle hcol ⊢
      simp only at hget hle hcol
      rw [hcons]
      rcases Nat.eq_zero_or_pos (q.line - p.line) with hzero | hpos
      · refine ⟨c :: l, by rw [hzero]; rfl, hle, ?_⟩
        rw [hzero, hls] at hget
        cases hget
        rw [if_pos (by omega)] at hcol ⊢
        rw [List.length_cons]
        omega
      · refine ⟨line, ?_, hle, ?_⟩
        · rw [hls] at hget
          rw [List.getElem?_cons, if_neg hpos.ne'] at hget ⊢
          exact hget
        · rw [if_neg (by omega)] at hcol ⊢
          exact hcol

/-! ## Bytes -/

/-- Only a line feed has a line feed among its bytes. -/
theorem newline_notMem_utf8Bytes {c : Char} (hc : c ≠ '\n') : '\n' ∉ utf8Bytes c := by
  by_cases hascii : c.toNat < 128
  · rw [utf8Bytes_of_lt hascii, List.mem_singleton]
    exact hc.symm
  · have hhigh : ∀ b ∈ String.utf8EncodeChar c, 128 ≤ b.toNat := by
      unfold String.utf8EncodeChar
      simp only [if_neg (show ¬ c.val.toNat ≤ 127 from fun h => hascii (Nat.lt_succ_of_le h))]
      split
      · simp
        omega
      · split <;> simp <;> omega
    intro hmem
    obtain ⟨b, hb, hnewline⟩ := List.mem_map.mp hmem
    have hvalid : b.toNat.isValidChar := .inl (by have := b.toNat_lt; omega)
    have htoNat := congrArg Char.toNat hnewline
    rw [Char.toNat_ofNat, if_pos hvalid] at htoNat
    exact absurd (hhigh b hb) (by rw [htoNat]; decide)

/-- The lines of the bytes are the bytes of the lines. -/
theorem splitLines_flatMap_utf8Bytes (cs : List Char) :
    splitLines (cs.flatMap utf8Bytes) = (splitLines cs).map (·.flatMap utf8Bytes) := by
  have happend : ∀ (ds es : List Char), '\n' ∉ ds → ∀ l ls, splitLines es = l :: ls →
      splitLines (ds ++ es) = (ds ++ l) :: ls := by
    intro ds es hds l ls hes
    induction ds with
    | nil => exact hes
    | cons d ds ih =>
      rw [List.mem_cons, not_or] at hds
      obtain ⟨l', ls', hls, hcons⟩ := splitLines_cons (Ne.symm hds.1) (ds ++ es)
      rw [ih hds.2] at hls
      cases hls
      exact hcons
  induction cs with
  | nil => rfl
  | cons c cs ih =>
    rw [List.flatMap_cons]
    by_cases hc : c = '\n'
    · subst hc
      rw [utf8Bytes_of_lt (by decide), List.singleton_append, splitLines_newline,
        splitLines_newline, ih]
      rfl
    · obtain ⟨l, ls, hls, hcons⟩ := splitLines_cons hc cs
      rw [hls] at ih
      rw [happend _ _ (newline_notMem_utf8Bytes hc) _ _ ih, hcons]
      rfl

theorem length_flatMap_utf8Bytes (cs : List Char) :
    (cs.flatMap utf8Bytes).length = (String.ofList cs).utf8ByteSize := by
  induction cs with
  | nil => rfl
  | cons c cs ih =>
    rw [List.flatMap_cons, List.length_append, ih, utf8Bytes, List.length_map,
      String.length_utf8EncodeChar]
    simp [String.utf8ByteSize_ofList]

/-! ## What is reported -/

def Source.Has (s : Source) (p : Pos) : Prop := ∃ pre, pre <+: s.bytes ∧ p = Pos.afterAll ⟨1, 1⟩ pre

/-- The diagnostic shows the source's name and the line that it points to; it points to a byte of
that line or right behind it. -/
structure Diagnostic.Points (s : Source) (d : Diagnostic) : Prop where
  file : d.file = s.name
  line_pos : 1 ≤ d.span.start.line
  line_le : d.span.start.line ≤ s.text.toList.count '\n' + 1
  line : ∃ raw k, IsLine s.text.toList d.span.start.line raw ∧
    raw = d.sourceLine.toList ++ List.replicate k '\r' ∧ d.sourceLine.toList.getLast? ≠ some '\r' ∧
    1 ≤ d.span.start.col ∧ d.span.start.col ≤ (String.ofList raw).utf8ByteSize + 1

/-- A diagnostic that gets its line from the text points to it. -/
theorem Diagnostic.points_withSource {s : Source} {d : Diagnostic} (h : s.Has d.span.start) :
    (d.withSource s).Points s := by
  obtain ⟨pre, ⟨rest, hbytes⟩, hpos⟩ := h
  obtain ⟨line, hget, hle, hcol⟩ := exists_line_afterAll ⟨1, 1⟩ pre rest
  have hone := (Pos.afterAll_bounds ⟨1, 1⟩ le_rfl pre).1
  rw [hbytes, Source.bytes, splitLines_flatMap_utf8Bytes, List.getElem?_map] at hget
  rw [← hpos] at hget hle hcol hone
  obtain ⟨raw, hraw, rfl⟩ := Option.map_eq_some_iff.mp hget
  rw [length_flatMap_utf8Bytes] at hcol
  simp only [ite_self] at hcol
  obtain ⟨m, hm⟩ : ∃ m, d.span.start.line = m + 1 := ⟨_, (Nat.sub_add_cancel hle).symm⟩
  have hline : IsLine s.text.toList d.span.start.line raw := by
    rw [hm] at hraw ⊢
    exact isLine_of_splitLines hraw
  have hshown : (d.withSource s).sourceLine.toList = trimReturns raw := by
    rw [hm] at hraw
    change s.lines[m]? = some raw at hraw
    rw [withSource, hm, Source.line?, hraw]
    exact String.toList_ofList
  obtain ⟨k, hk, hlast⟩ := exists_returns raw
  refine ⟨rfl, hle, hline.le_count, raw, k, hline, ?_, ?_, hone, ?_⟩
  · rw [hshown]; exact hk
  · rw [hshown]; exact hlast
  · exact hcol.trans_eq (Nat.add_comm _ _)

/-! ## The stages -/

namespace Scan

/-- Every fault is at a byte of the text, also if scanning stops early. -/
theorem exists_fault_start (n : Nat) (p : Pos) (cs : List Char) (hroom : p.Room cs.length) :
    ∀ f ∈ (scanFrom n p cs).faults, ∃ pre, pre <+: cs ∧ f.2.start = p.afterAll pre := by
  -- What follows a piece, or nothing if the report is full.
  have hlater : ∀ {p q : Pos} {cs rest more : List Char} {c : Char} {r : Scan},
      Behind p cs q c more rest →
      (∀ f ∈ r.faults, ∃ pre, pre <+: rest ∧ f.2.start = (pieceEnd q more.length).afterAll pre) →
      ∀ f ∈ r.faults, ∃ pre, pre <+: cs ∧ f.2.start = p.afterAll pre := by
    intro p q cs rest more c r hbehind h f hf
    obtain ⟨pre, ⟨after, rfl⟩, hstart⟩ := h f hf
    rw [hbehind.pieceEnd_eq] at hstart
    obtain ⟨skipped, rfl, rfl⟩ := exists_skipped hbehind.room hbehind.skip
    refine ⟨skipped ++ (c :: more ++ pre), ⟨after, by simp⟩, ?_⟩
    rw [hstart, Pos.afterAll_append, Pos.afterAll_append]
  have hhere : ∀ {p q : Pos} {cs rest more : List Char} {c : Char} {s : Span},
      Behind p cs q c more rest → s = .onLine q more.length →
      ∃ pre, pre <+: cs ∧ s.start = p.afterAll pre := by
    rintro p q cs rest more c _ hbehind rfl
    obtain ⟨pre, rfl, hq⟩ := exists_skipped hbehind.room hbehind.skip
    exact ⟨pre, List.prefix_append _ _, hq⟩
  have hend : ∀ {q : Pos} {rest : List Char}, ∀ f ∈ (atEnd q).faults,
      ∃ pre, pre <+: rest ∧ f.2.start = q.afterAll pre := nofun
  fun_induction scanFrom n p cs with
  | case1 n p cs q => exact nofun
  | case2 n p cs q c rest hskip hpiece more ih =>
    have hline := line_of_visible (skipTrivia_stops hskip).1
    have hbehind : Behind p cs q c [] rest := ⟨hskip, hroom, hline⟩
    exact List.forall_mem_cons.mpr
      ⟨hhere hbehind hbehind.counts.span, hlater hbehind (ih hbehind.room_end)⟩
  | case3 n p cs q c rest hskip k extra hpiece more ih =>
    obtain ⟨more', rest, rfl, rfl, hlexeme⟩ := begins_of_token hpiece
    have hbehind : Behind p cs q c more' rest := ⟨hskip, hroom, hlexeme.line⟩
    refine hlater hbehind ?_
    by_cases hfull : Report.limit ≤ n
    · simp only [more, dif_pos hfull]
      exact hend
    · simp only [more, dif_neg hfull, List.drop_left] at ih ⊢
      exact ih hbehind.room_end
  | case4 n p cs q c rest hskip digits hpiece extra more ih =>
    obtain ⟨more', rest, rfl, rfl, hlexeme⟩ := exists_lexeme_of_tooLarge hpiece
    have hbehind : Behind p cs q c more' rest := ⟨hskip, hroom, hlexeme.line⟩
    refine List.forall_mem_cons.mpr ⟨hhere hbehind hbehind.counts.digits, hlater hbehind ?_⟩
    by_cases hfull : Report.limit ≤ n + 1
    · simp only [more, dif_pos hfull]
      exact hend
    · simp only [more, extra, dif_neg hfull, List.length_cons, Nat.add_sub_cancel,
        List.drop_left] at ih ⊢
      exact ih hbehind.room_end

end Scan

theorem Source.has_of_token {s : Source} (hsize : s.bytes.length < 2 ^ 32 - 1) {t : Token}
    (hfaults : (Scan.ofSource s).faults = []) (ht : t ∈ (Scan.ofSource s).tokens) :
    s.Has t.span.start := by
  obtain ⟨ts, htokens, hsteps⟩ := Scan.reads_ofSource hsize hfaults
  rw [htokens] at ht
  rcases List.mem_append.mp ht with ht | ht
  · obtain ⟨pre, seg, rest, hbytes, hstep⟩ := hsteps.at_token ht
    exact ⟨pre, ⟨_, hbytes.symm⟩, (hstep.spans.1 t (.head _)).start_eq⟩
  · rw [List.mem_singleton.mp ht]
    exact ⟨s.bytes, List.prefix_rfl, rfl⟩

namespace Visit

variable {scopes : Scopes} {e : NamedExpr} {w : Visit} {f : ScopeFault × Span}

theorem mem_names {form : BindingForm} {xs : List Ident} {earlier : List String}
    (hw : w ∈ names form earlier xs) : ∃ earlier, ∃ x ∈ xs, w = .name form earlier x := by
  induction xs generalizing earlier with
  | nil => cases hw
  | cons x xs ih =>
    rcases List.mem_cons.mp hw with rfl | hw
    · exact ⟨_, x, .head _, rfl⟩
    · obtain ⟨earlier, y, hy, rfl⟩ := ih hw
      exact ⟨earlier, y, .tail _ hy, rfl⟩

/-- Below an expression resolving comes to its children and to names that stand in it. -/
theorem mem_next (hw : w ∈ (Visit.expr scopes e).next) :
    (∃ scopes, ∃ c ∈ e.children, w = .expr scopes c) ∨
      ∃ form earlier x, x.span ∈ e.partSpans ∧ w = .name form earlier x := by
  cases e with
  | map s params layout body =>
    rcases List.mem_append.mp hw with hw | hw
    · obtain ⟨earlier, x, hx, rfl⟩ := mem_names hw
      exact .inr ⟨_, _, x, List.mem_append_left _ (List.mem_map_of_mem hx), rfl⟩
    · exact .inl ⟨_, body, .head _, List.mem_singleton.mp hw⟩
  | letIn s kind defs layout body =>
    have hbody : body ∈ (Expr.letIn s kind defs layout body).children :=
      List.mem_append_right _ (.head _)
    cases kind with
    | plain | recursive =>
      simp only [next, List.mem_append, List.mem_map, List.mem_singleton] at hw
      rcases hw with (hw | hw) | rfl
      rotate_left 2
      · exact .inl ⟨_, body, hbody, rfl⟩
      all_goals
        first
        | obtain ⟨d, hd, rfl⟩ := hw
          exact .inl ⟨_, d.2, List.mem_append_left _ (List.mem_map_of_mem hd), rfl⟩
        | obtain ⟨earlier, x, hx, rfl⟩ := mem_names hw
          obtain ⟨d, hd, rfl⟩ := List.mem_map.mp hx
          exact .inr ⟨_, _, d.1,
            List.mem_append_left _ (List.mem_flatMap.mpr ⟨d, hd, .head _⟩), rfl⟩
  | _ =>
    simp only [next, List.mem_cons, List.mem_map] at hw
    grind [Expr.children]

/-- What is wrong at a place is at a name that stands in a node. -/
theorem exists_node_of_faultAt {place : List Nat}
    (h : (Visit.expr scopes e).faultAt place = some f) :
    ∃ n : NamedExpr, n.IsNode e ∧ f.2 ∈ n.partSpans := by
  induction place generalizing scopes e with
  | nil =>
    cases e with
    | var s x =>
      simp only [faultAt, at?, Option.bind_some, fault?] at h
      split at h
      · cases h
      · cases h
        exact ⟨_, .root, .head _⟩
    | _ => cases h
  | cons i place ih =>
    rw [faultAt_cons, faultBelow] at h
    obtain ⟨w, hw, h⟩ := Option.bind_eq_some_iff.mp h
    rcases mem_next (List.mem_of_getElem? hw) with ⟨_, c, hc, rfl⟩ | ⟨form, earlier, x, hx, rfl⟩
    · obtain ⟨n, hn, hspan⟩ := ih h
      exact ⟨n, .child hc hn, hspan⟩
    · cases place with
      | nil =>
        simp only [faultAt, at?, Option.bind_some, fault?] at h
        split at h
        · cases h
          exact ⟨e, .root, hx⟩
        · cases h
      | cons j place => cases h

end Visit

/-- Whatever is reported for a text that cannot be read points to the text. -/
theorem parseSource_error_points {s : Source} (hsize : s.bytes.length < 2 ^ 32 - 1) {r : Report}
    (h : parseSource s = .error r) :
    ∀ d ∈ r.kept, d.Points s := by
  intro d hd
  simp only [parseSource] at h
  split at h
  case isTrue =>
    cases h
    rw [Scan.report, Report.kept_ofList] at hd
    obtain ⟨f, hf, rfl⟩ := List.mem_map.mp (List.mem_of_mem_take hd)
    exact Diagnostic.points_withSource (Scan.exists_fault_start _ _ _ (Scan.room_start hsize) f hf)
  case isFalse hfaults =>
    rw [Bool.not_eq_true, Scan.hasErrors_report] at hfaults
    split at h
    · cases h
    · rename_i stop hstop
      cases h
      obtain ⟨d, -, -, -, hok⟩ | ⟨f, read, t, left, hread, hfault⟩ :=
        parseTokens_ends (Scan.endsText_scanFrom 0 ⟨1, 1⟩ s.bytes)
      · cases hok.symm.trans hstop
      · cases hfault.symm.trans hstop
        cases List.mem_singleton.mp hd
        have ht : t ∈ (Scan.ofSource s).tokens := hread ▸ List.mem_append_right _ (.head _)
        exact Diagnostic.points_withSource (Source.has_of_token hsize hfaults ht)

/-- Whatever is reported for the names of a program points to its text. -/
theorem resolve_error_points {s : Source} (hsize : s.bytes.length < 2 ^ 32 - 1)
    {e : NamedExpr} {r : Report} (hparse : parseSource s = .ok e) (h : e.resolve = .error r) :
    ∀ d ∈ (r.withSource s).kept, d.Points s := by
  intro d hd
  obtain ⟨ts, hsteps, hnests⟩ := exists_nests hsize hparse
  rw [Expr.resolve_eq] at h
  split at h
  case h_1 => cases h
  case h_2 =>
    cases h
    rw [Report.withSource, Report.kept_ofList] at hd
    obtain ⟨d, hkept, rfl⟩ := List.mem_map.mp hd
    obtain ⟨f, hf, rfl⟩ := List.mem_map.mp (List.mem_of_mem_take hkept)
    obtain ⟨places, hplaces⟩ := Visit.finds_scopeFaults [] e
    have hfound : some f ∈ places.map _ := hplaces.found ▸ List.mem_map_of_mem hf
    obtain ⟨place, -, hplace⟩ := List.mem_map.mp hfound
    obtain ⟨n, hn, hspan⟩ := Visit.exists_node_of_faultAt hplace
    obtain ⟨t, ht, hstart⟩ := ((hnests n hn).parts _ hspan).1.starts
    obtain ⟨pre, seg, rest, hbytes, hstep⟩ := hsteps.at_token ht
    refine Diagnostic.points_withSource ⟨pre, ⟨_, hbytes.symm⟩, ?_⟩
    exact hstart.trans (hstep.spans.1 t (.head _)).start_eq

/-- A repeated name on a line that ends with a carriage return, after one with a character of two
bytes. -/
def repeatedName : Source := ⟨"test.jam", "// é\r\nmap x, x to x\r"⟩

def repeatedNameError : Diagnostic :=
  ((ScopeFault.repeated "x" .params).diagnostic (.point ⟨2, 8⟩)).withSource repeatedName

end Mapling
