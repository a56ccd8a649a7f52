import Mapling.Proofs.Syntax.Writing

/-! # Programs and their texts

What is read from a text can be written (`Expr.Writable`), what can be written is written in
ASCII, and so the text of a program that was read is read again.

Main statement: `parseSource_text_of_parseSource`. -/

namespace Mapling

open Mapling.Scan Mapling.Phrase Mapling.Expr

variable {cs ds : List Char} {e : NamedExpr}

/-! ## What can be read can be written -/

namespace Expr

mutual

/-- The expressions that a text can be read as: names are words, integers are not negative, and
blocks and definitions are not empty. -/
@[simp] def Writable : NamedExpr → Prop
  | .int _ n => 0 ≤ n ∧ n ≤ Scan.maxInt
  | .bool _ _ | .null _ | .prim _ _ => True
  | .var _ x => IsName x.name
  | .unary _ _ e => e.Writable
  | .binary _ _ l r => l.Writable ∧ r.Writable
  | .app _ f args => f.Writable ∧ AllWritable args
  | .map _ params _ body => (∀ x ∈ params, IsName x.name) ∧ body.Writable
  | .cond _ t a b => t.Writable ∧ a.Writable ∧ b.Writable
  | .letIn _ _ defs _ body => defs ≠ [] ∧ DefsWritable defs ∧ body.Writable
  | .block _ es => es ≠ [] ∧ AllWritable es

@[simp] def AllWritable : List NamedExpr → Prop
  | [] => True
  | e :: es => e.Writable ∧ AllWritable es

@[simp] def DefsWritable : List (Ident × NamedExpr) → Prop
  | [] => True
  | d :: ds => DefWritable d ∧ DefsWritable ds

@[simp] def DefWritable : Ident × NamedExpr → Prop
  | (x, e) => IsName x.name ∧ e.Writable

end

mutual

theorem written : (e : NamedExpr) → e.Writable → e.Written
  | .int _ _, h => .int h
  | .bool _ _, _ => .bool
  | .null _, _ => .null
  | .var _ _, h => .var h
  | .prim _ _, _ => .prim
  | .unary _ op e, h => .unary (written e h) op
  | .binary _ op l r, h => .binary (written l h.1) (written r h.2) op
  | .app _ f args, h => .app (written f h.1) (allWritten args h.2)
  | .map _ _ _ body, h => .map h.1 (written body h.2)
  | .cond _ t a b, h => .cond (written t h.1) (written a h.2.1) (written b h.2.2)
  | .letIn _ _ defs _ body, h => .letIn h.1 (defsWritten defs h.2.1) (written body h.2.2)
  | .block _ es, h => .block h.1 (allWritten es h.2)

theorem allWritten : (es : List NamedExpr) → AllWritable es → ∀ e ∈ es, e.Written
  | [], _ => nofun
  | e :: es, h => List.forall_mem_cons.mpr ⟨written e h.1, allWritten es h.2⟩

theorem defsWritten : (ds : List (Ident × NamedExpr)) → DefsWritable ds →
    ∀ d ∈ ds, IsName d.1.name ∧ d.2.Written
  | [], _ => nofun
  | d :: ds, h => List.forall_mem_cons.mpr ⟨defWritten d h.1, defsWritten ds h.2⟩

theorem defWritten : (d : Ident × NamedExpr) → DefWritable d → IsName d.1.name ∧ d.2.Written
  | (_, e), h => ⟨h.1, written e h.2⟩

end

end Expr

@[simp] def Nonterminal.Writable : (nt : Nonterminal) → nt.Tree → Prop
  | .level _, e => Expr.Writable e
  | .operands _, f | .calls, f => ∀ e : NamedExpr, e.Writable → (f e).Writable
  | .arguments, es | .moreArguments, es | .components, es => AllWritable es
  | .definitions, ds => ds ≠ [] ∧ DefsWritable ds
  | .parameters, ps | .moreParameters, ps => ∀ x ∈ ps, IsName x.name

/-- From tokens that can be spelled, an expression is built that can be written. -/
theorem Phrase.writable {nt : Nonterminal} (d : Phrase nt)
    (h : ∀ t ∈ d.tokens, t.kind.Spellable) : nt.Writable d.tree := by
  induction d with
  | operand s op hop e more ihe ihmore =>
    simp only [tokens, List.mem_cons, List.mem_append, or_imp, forall_and] at h
    intro left hleft
    exact ihmore h.2.2 _ ⟨hleft, ihe h.2.1⟩
  | callOn s args s' more ihargs ihmore =>
    simp only [tokens, List.mem_cons, List.mem_append, or_imp, forall_and] at h
    intro f hf
    exact ihmore h.2.2.2 _ ⟨hf, ihargs h.2.1⟩
  | _ =>
    simp_all [Token.ofMark, Token.ofWord, Token.ofIdent, Expr.mkBinary, or_imp, forall_and]

/-! ## Texts are ASCII -/

def IsAscii (cs : List Char) : Prop := ∀ c ∈ cs, c.toNat < 128

variable {c : Char}

theorem utf8Bytes_of_lt (hc : c.toNat < 128) : utf8Bytes c = [c] := by
  have hsize : c.utf8Size = 1 := by
    rw [Char.utf8Size_eq_one_iff]
    exact UInt32.le_iff_toNat_le.mpr (Nat.le_of_lt_succ hc)
  have hbyte : c.val.toUInt8.toNat = c.toNat := by
    rw [UInt32.toNat_toUInt8]
    exact Nat.mod_eq_of_lt (Nat.lt_trans hc (by decide))
  rw [utf8Bytes, String.utf8EncodeChar_eq_singleton hsize, List.map_singleton, hbyte,
    Char.ofNat_toNat]

theorem IsAscii.bytes (h : IsAscii cs) : cs.flatMap utf8Bytes = cs := by
  induction cs with
  | nil => rfl
  | cons c cs ih =>
    rw [List.flatMap_cons, utf8Bytes_of_lt (h c (.head _)), ih (fun d hd => h d (.tail _ hd))]
    rfl

@[simp] theorem isAscii_nil : IsAscii [] := nofun

@[simp] theorem isAscii_cons : IsAscii (c :: cs) ↔ c.toNat < 128 ∧ IsAscii cs :=
  List.forall_mem_cons

@[simp] theorem isAscii_append : IsAscii (cs ++ ds) ↔ IsAscii cs ∧ IsAscii ds :=
  List.forall_mem_append

theorem isAscii_intercalate (sep : String) (hsep : IsAscii sep.toList) {items : List String}
    (h : ∀ t ∈ items, IsAscii t.toList) : IsAscii (String.intercalate sep items).toList := by
  cases items with
  | nil => simp
  | cons t ts =>
    rw [toList_intercalate_cons, isAscii_append]
    refine ⟨h t (.head _), fun c hc => ?_⟩
    obtain ⟨u, hu, hc⟩ := List.mem_flatMap.mp hc
    rcases List.mem_append.mp hc with hc | hc
    · exact hsep c hc
    · exact h u (.tail _ hu) c hc

theorem toNat_lt_of_isWordChar (hc : Scan.isWordChar c) : c.toNat < 128 := by
  simp only [isWordChar, Char.isAlphanum, Char.isAlpha, Char.isUpper, Char.isLower, Char.isDigit,
    Bool.or_eq_true, Bool.and_eq_true, decide_eq_true_eq, beq_iff_eq] at hc
  have of_le {n : UInt32} (hn : n.toNat < 128) (h : c.val ≤ n) : c.toNat < 128 :=
    Nat.lt_of_le_of_lt (UInt32.le_iff_toNat_le.mp h) hn
  rcases hc with ((hc | hc) | hc) | rfl
  · exact of_le (by decide) hc.2
  · exact of_le (by decide) hc.2
  · exact of_le (by decide) hc.2
  · decide

theorem isAscii_toString (n : Nat) : IsAscii (toString n).toList := by
  intro c hc
  rw [Nat.toString_eq_repr, Nat.toList_repr] at hc
  have hdigit : c.isDigit := Nat.isDigit_of_mem_toDigits (by decide) (by decide) hc
  exact toNat_lt_of_isWordChar (by simp [isWordChar, Char.isAlphanum, hdigit])

theorem IsName.isAscii {x : String} (hx : IsName x) : IsAscii x.toList := by
  obtain ⟨⟨c, cs, hchars, hc, hcs⟩, -⟩ := hx
  have hstart : isWordChar c := by
    simp only [isWordStart, Bool.or_eq_true] at hc
    simp only [isWordChar, Char.isAlphanum, Bool.or_eq_true]
    exact hc.imp_left .inl
  rw [hchars, isAscii_cons]
  exact ⟨toNat_lt_of_isWordChar hstart, fun d hd => toNat_lt_of_isWordChar (hcs d hd)⟩

theorem isAscii_parameterText {ps : List Ident} (h : ∀ x ∈ ps, IsName x.name) :
    IsAscii (parameterText ps).toList := by
  cases ps with
  | nil => simp [parameterText]
  | cons x ps =>
    have hnames : ∀ t ∈ (x :: ps).map Ident.name, IsAscii t.toList := by
      intro t ht
      obtain ⟨y, hy, rfl⟩ := List.mem_map.mp ht
      exact (h y hy).isAscii
    have htext := isAscii_intercalate ", " (by simp) hnames
    change IsAscii (String.intercalate ", " ((x :: ps).map Ident.name) ++ " ").toList
    rw [String.toList_append, isAscii_append]
    exact ⟨htext, by simp⟩

theorem isAscii_enclosed (bare : Bool) {t : String} (h : IsAscii t.toList) :
    IsAscii (enclosed bare t).toList := by
  cases bare <;> simpa [enclosed] using h

namespace Expr

mutual

/-- The text of an expression that can be written has only ASCII characters. -/
theorem isAscii_text : (e : NamedExpr) → e.Writable → IsAscii e.text.toList
  | .int _ n, h => by
      obtain ⟨m, rfl⟩ := Int.eq_ofNat_of_zero_le h.1
      rw [text, if_neg (by omega)]
      exact isAscii_toString m
  | .bool _ b, _ => by cases b <;> simp [text]
  | .null _, _ => by simp [text]
  | .var _ x, h => h.isAscii
  | .prim _ p, _ => by cases p <;> simp [text, Prim.name]
  | .unary _ op e, h => by
      have he := isAscii_enclosed e.isBareOperand (isAscii_text e h)
      cases op <;> simpa [text, UnaryOp.symbol] using he
  | .binary _ op l r, h => by
      have hl := isAscii_enclosed l.isBareOperand (isAscii_text l h.1)
      have hr := isAscii_enclosed r.isBareOperand (isAscii_text r h.2)
      cases op <;> simpa [text, BinaryOp.symbol] using ⟨hl, hr⟩
  | .app _ f args, h => by
      have hf := isAscii_enclosed f.isBareOperand (isAscii_text f h.1)
      have hargs := isAscii_intercalate ", " (by simp) (isAscii_texts args h.2)
      simpa [text] using ⟨hf, hargs⟩
  | .map _ params _ body, h => by
      simpa [text] using ⟨isAscii_parameterText h.1, isAscii_text body h.2⟩
  | .cond _ t a b, h => by
      simpa [text] using ⟨isAscii_text t h.1, isAscii_text a h.2.1, isAscii_text b h.2.2⟩
  | .letIn _ kind defs _ body, h => by
      have hparts := And.intro (isAscii_defsText defs h.2.1) (isAscii_text body h.2.2)
      cases kind <;> simpa [text, LetKind.keyword] using hparts
  | .block _ es, h => by
      have hes := isAscii_intercalate "; " (by simp) (isAscii_texts es h.2)
      simpa [text] using hes

theorem isAscii_texts : (es : List NamedExpr) → AllWritable es →
    ∀ t ∈ texts es, IsAscii t.toList
  | [], _ => nofun
  | e :: es, h => List.forall_mem_cons.mpr ⟨isAscii_text e h.1, isAscii_texts es h.2⟩

theorem isAscii_defsText : (ds : List (Ident × NamedExpr)) → DefsWritable ds →
    IsAscii (defsText ds).toList
  | [], _ => by simp [defsText]
  | d :: ds, h => by
      simpa [defsText] using ⟨isAscii_defText d h.1, isAscii_defsText ds h.2⟩

theorem isAscii_defText : (d : Ident × NamedExpr) → DefWritable d → IsAscii (defText d).toList
  | (_, e), h => by simpa [defText] using ⟨h.1.isAscii, isAscii_text e h.2⟩

end

end Expr

/-! ## The round trip -/

theorem Scan.hasErrors_report (r : Scan) (s : Source) :
    (r.report s).hasErrors = false ↔ r.faults = [] := by
  rw [Scan.report, Report.hasErrors, Report.total_ofList, List.length_map]
  simp

theorem parseSource_eq_ok {s : Source} :
    parseSource s = .ok e ↔
      (Scan.ofSource s).faults = [] ∧ parseTokens (Scan.ofSource s).tokens = .ok e := by
  rw [← Scan.hasErrors_report _ s, parseSource]
  cases ((Scan.ofSource s).report s).hasErrors with
  | true => simp
  | false =>
    cases parseTokens (Scan.ofSource s).tokens with
    | error | ok => simp

/-- What is read from a text can be written. -/
theorem writable_of_parseSource {s : Source} (h : parseSource s = .ok e) : e.Writable := by
  obtain ⟨hfaults, hparse⟩ := parseSource_eq_ok.mp h
  obtain ⟨hspellable, ts, z, htokens, hz⟩ := wellSpelled_scanFrom _ _ _ hfaults
  change (Scan.ofSource s).tokens = ts ++ [z] at htokens
  rw [htokens] at hparse
  obtain ⟨d, rest, hd, -, -, rfl⟩ := exists_phrase_of_parseTokens hz hparse
  refine d.writable (fun t ht => hspellable t ?_)
  change t ∈ (Scan.ofSource s).tokens
  rw [htokens, hd]
  exact List.mem_append_left _ ht

/-- An expression that can be written is read from its text. -/
theorem parseSource_text (he : e.Writable) (name : String) :
    ∃ e', parseSource ⟨name, e.text⟩ = .ok e' ∧ e'.unspanned = e.reread := by
  obtain ⟨d, q, hpass, htree, hended⟩ := (written e he).alone ⟨1, 1⟩ [] delimited_nil
  have hscan : Scan.ofSource ⟨name, e.text⟩ = (scanFrom 0 q []).before d.tokens := by
    rw [Scan.ofSource, Source.bytes, (isAscii_text e he).bytes]
    simpa [Passes] using hpass
  have hend : scanFrom 0 q [] = atEnd q := by
    rw [scanFrom]
    rfl
  refine ⟨d.tree, parseSource_eq_ok.mpr ?_, htree⟩
  rw [hscan, hend]
  exact ⟨rfl, parseTokens_tokens d rfl (hended _ rfl)⟩

/-- The text of every program that was read is read again. The same program comes back, but for
spans, exactly if no prefix operation is called in it; if one is, the call comes back inside of the
prefix operators. -/
theorem parseSource_text_of_parseSource (s : Source) (e : NamedExpr) (h : parseSource s = .ok e)
    (name : String) :
    ∃ e', parseSource ⟨name, e.text⟩ = .ok e' ∧ e'.unspanned = e.reread ∧
      (e'.unspanned = e.unspanned ↔ e.callsPrefix = false) := by
  obtain ⟨e', hparse, htree⟩ := parseSource_text (writable_of_parseSource h) name
  refine ⟨e', hparse, htree, ?_⟩
  rw [htree]
  exact reread_eq_unspanned_iff e

/-- The source `(-f)(x)`. -/
def callOfNegation : Source := ⟨"test.jam", "(-f)(x)"⟩

/-- The source `-f(x)`. -/
def negationOfCall : Source := ⟨"test.jam", "-f(x)"⟩

theorem parseSource_text_callOfNegation :
    ∃ e, parseSource callOfNegation = .ok e ∧
      ∃ e', parseSource ⟨"test.jam", e.text⟩ = .ok e' ∧ e'.unspanned = e.reread ∧
        (e'.unspanned = e.unspanned ↔ e.callsPrefix = false) := by
  have h : ∃ e, parseSource callOfNegation = .ok e := ⟨_, by cbv⟩
  obtain ⟨e, he⟩ := h
  exact ⟨e, he, parseSource_text_of_parseSource callOfNegation e he "test.jam"⟩

/-- The text of `(-f)(x)` is `-f(x)`, and that is read as another program. -/
theorem text_callOfNegation_read_otherwise :
    ∃ e e', parseSource callOfNegation = .ok e ∧ e.text = negationOfCall.text ∧
      parseSource negationOfCall = .ok e' ∧ e'.unspanned ≠ e.unspanned := by
  refine ⟨_, _, by cbv, by cbv, by cbv, ?_⟩
  simp

end Mapling
