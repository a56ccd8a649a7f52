import Mapling.Proofs.Syntax.Soundness
import Mathlib

/-! # The parser reads all of its grammar

In front of some tokens a parser gives what it has read, and the tokens that are left
(`Parser.Gives`). The reader of a part of the grammar is complete below `n` tokens if it gives every
phrase of fewer than `n` tokens that fits where it stands (`Complete`). Each function of the reader
is complete if the function for expressions that it calls is; the number that bounds the recursion
is large enough since every nested expression leaves a token of its own to the form around it. A
text has one reading at most, since the reader gives one phrase at most.

Main statement: `parseTokens_eq_ok_iff_reading`. -/

namespace Mapling

open Mapling.Parser Mapling.Phrase

/-! ## Steps of the parser -/

/-- The tokens `us` are to be read, the end of the text is seen after them, and nothing has been
reported. -/
def ParseState.At (c : ParseState) (us : List Token) : Prop :=
  c.rest = us ∧ c.last.kind = .eof ∧ c.faults = []

variable {us vs ws : List Token} {t z : Token}

theorem ParseState.At.kind_eq {c : ParseState} (h : c.At us) : c.current.kind = nextKind us := by
  obtain ⟨rfl, hlast, -⟩ := h
  rw [ParseState.current, nextKind]
  cases c.rest with
  | nil => exact hlast
  | cons t us => rfl

theorem ParseState.at_ofTokens (hz : z.kind = .eof) :
    (ParseState.ofTokens (us ++ [z])).At (us ++ [z]) := by
  refine ⟨rfl, ?_, rfl⟩
  simp [ParseState.ofTokens, hz]

namespace Parser

variable {α β : Type} {p : Parser α} {a : α} {b : β}

/-- In front of the tokens `us` the parser reads `a` and leaves `vs`. -/
def Gives (p : Parser α) (us : List Token) (a : α) (vs : List Token) : Prop :=
  ∀ c : ParseState, c.At us → ∃ c', p.outcome c = (some a, c') ∧ c'.At vs

namespace Gives

theorem unique {a' : α} (h : Gives p (us ++ [z]) a vs) (h' : Gives p (us ++ [z]) a' ws)
    (hz : z.kind = .eof) : a = a' := by
  obtain ⟨c1, h1, -⟩ := h _ (ParseState.at_ofTokens hz)
  obtain ⟨c2, h2, -⟩ := h' _ (ParseState.at_ofTokens hz)
  cases h1.symm.trans h2
  rfl

theorem pure : Gives (pure a) us a us := fun c hc => ⟨c, rfl, hc⟩

theorem bind {f : α → Parser β} (hp : Gives p us a vs) (hf : Gives (f a) vs b ws) :
    Gives (p >>= f) us b ws := by
  intro c hc
  obtain ⟨c1, hrun, hc1⟩ := hp c hc
  rw [outcome_bind, hrun]
  exact hf c1 hc1

theorem peek {f : TokenKind → Parser α} (h : Gives (f (nextKind us)) us a vs) :
    Gives (peek >>= f) us a vs := by
  intro c hc
  rw [← hc.kind_eq] at h
  exact h c hc

theorem advance {f : Token → Parser α} (h : Gives (f t) us a vs) :
    Gives (advance >>= f) (t :: us) a vs := by
  intro c hc
  have hcurrent : c.current = t := by
    rw [ParseState.current, hc.1]
    rfl
  subst hcurrent
  exact h c.next ⟨by rw [ParseState.next, hc.1]; rfl, hc.2⟩

theorem take {k : TokenKind} {s : Span} {f : Span → Parser α} (h : Gives (f s) us a vs) :
    Gives (Reader.take k >>= f) (⟨k, s⟩ :: us) a vs := by
  rw [Reader.take, bind_assoc]
  refine peek ?_
  rw [nextKind_cons, if_pos rfl, bind_assoc]
  exact advance h

theorem identifier {x : Ident} {f : Ident → Parser α} (h : Gives (f x) us a vs) :
    Gives (identifier >>= f) (.ofIdent x :: us) a vs := by
  rw [Parser.identifier, bind_assoc]
  refine peek ?_
  change Gives ((Parser.advance >>= fun t => Pure.pure ⟨x.name, t.span⟩) >>= f) _ _ _
  rw [bind_assoc]
  exact advance h

end Gives

end Parser

/-! ## Completeness -/

variable {ch : Chain} {op : TokenKind → Option BinaryOp} {rest : List Token} {nt : Nonterminal}

/-- The reader gives every phrase of fewer than `n` tokens that fits where it stands. -/
def Complete {nt : Nonterminal} (n : Nat) (q : Parser (Phrase nt)) : Prop :=
  ∀ d rest, d.tokens.length < n → d.Fits rest → Gives q (d.tokens ++ rest) d rest

theorem Phrase.tokens_length_pos {l : Level} (d : Phrase (.level l)) : 0 < d.tokens.length := by
  rw [List.length_pos_iff]
  intro hnil
  have hstart := d.startsExpression []
  rw [hnil] at hstart
  rcases hstart with h | ⟨op, h⟩
  · cases h
  · cases op <;> cases h

namespace Complete

variable {n : Nat} {expr : Parser (Phrase (.level .assignment))}

theorem operands (hop : OperatorsOf ch op) {operand : Parser (Phrase (.level ch.operand))}
    (hoperand : Complete n operand) (b : Nat) (hb : b ≤ n) :
    Complete b (Reader.operands ch op operand b) := by
  induction b with
  | zero => exact fun d rest hn _ => absurd hn (Nat.not_lt_zero _)
  | succ b ih =>
    intro d rest hn hd
    refine .peek ?_
    cases d with
    | noOperand =>
      have hnone : op (nextKind rest) = none := by
        refine Option.eq_none_iff_forall_ne_some.mpr (fun o ho => ?_)
        have hstop := fits_noOperand.mp hd
        rw [← Bool.not_eq_true, carriedOnBy_chain] at hstop
        exact hstop (.inr ⟨o, (hop _ o).mp ho⟩)
      simp only [tokens, List.nil_append, hnone]
      exact .pure
    | operand s o hmem e more =>
      obtain ⟨he, hmore⟩ := fits_operand.mp hd
      simp only [tokens, List.cons_append, List.append_assoc, List.length_cons, List.length_append,
        nextKind_cons, Token.ofMark, (hop _ o).mpr ⟨hmem, rfl⟩, hmem, dif_pos] at hn ⊢
      exact .advance (.bind (hoperand e _ (by omega) he)
        (.bind (ih (by omega) more _ (by omega) hmore) .pure))

theorem chain (hop : OperatorsOf ch op) {operand : Parser (Phrase (.level ch.operand))}
    (hoperand : Complete (n + 1) operand) : Complete (n + 1) (Reader.chain ch op operand n) := by
  intro d rest hn hd
  cases d with
  | chain first more =>
    obtain ⟨hfirst, hmore⟩ := fits_chain.mp hd
    have hpos := first.tokens_length_pos
    simp only [tokens, List.append_assoc, List.length_append] at hn ⊢
    exact .bind (hoperand first _ (by omega) hfirst)
      (.bind (operands hop hoperand n (Nat.le_succ n) more _ (by omega) hmore) .pure)

theorem unary {operand : Parser (Phrase (.level .call))} (hoperand : Complete (n + 1) operand)
    (b : Nat) (hb : b ≤ n) : Complete (b + 1) (Reader.unary operand b) := by
  induction b with
  | zero =>
    intro d rest hn
    have hpos := d.tokens_length_pos
    omega
  | succ b ih =>
    intro d rest hn hd
    refine .peek ?_
    cases d with
    | unapplied e =>
      cases e with
      | call f more =>
        have hnone : unaryOp (nextKind ((Phrase.call f more).tokens ++ rest)) = none := by
          refine Option.eq_none_iff_forall_ne_some.mpr (fun o ho => ?_)
          have hform := form?_nextKind f (more.tokens ++ rest)
          rw [← List.append_assoc, ← tokens, unaryOp_eq_some.mp ho, form?_token] at hform
          cases hform
        rw [tokens] at hn ⊢
        rw [hnone]
        exact .bind (hoperand (.call f more) rest (by omega) hd) .pure
    | apply s op e =>
      simp only [tokens, List.cons_append, List.length_cons] at hn ⊢
      rw [nextKind_cons, unaryOp_eq_some.mpr rfl]
      exact .advance (.bind (ih (by omega) e _ (by omega) hd) .pure)

/-! ### Lists -/

theorem arguments (hexpr : Complete n expr) (b : Nat) (e : Phrase (.level .assignment))
    (more : Phrase .moreArguments) (s : Span) (hn : (argument e more).tokens.length < n)
    (hb : (argument e more).tokens.length ≤ b)
    (hd : (argument e more).Fits (.ofMark .rightParen s :: rest)) :
    Gives (Reader.arguments expr b) (e.tokens ++ (more.tokens ++ .ofMark .rightParen s :: rest))
      ((e, more), s) rest := by
  have hpos := e.tokens_length_pos
  simp only [tokens, List.length_append] at hn hb
  induction b generalizing e more with
  | zero => omega
  | succ b ih =>
    obtain ⟨hfirst, hmore⟩ := fits_argument.mp hd
    refine .bind (hexpr e _ (by omega) hfirst) (.peek ?_)
    cases more with
    | lastArgument =>
      rw [if_neg (by rintro ⟨⟩)]
      exact .take .pure
    | nextArgument s' e' more =>
      simp only [tokens, List.cons_append, List.append_assoc, List.length_cons,
        List.length_append] at hn hb ⊢
      rw [nextKind_cons, Token.ofMark, if_pos rfl]
      exact .advance (.bind (ih e' more (fits_argument.mpr (fits_nextArgument.mp hmore))
        e'.tokens_length_pos (by omega) (by omega)) .pure)

/-- Every call of the grammar is read. -/
theorem calls (hexpr : Complete n expr) (b : Nat) (hb : b ≤ n) :
    Complete b (Reader.calls expr n b) := by
  induction b with
  | zero => exact fun d rest hn _ => absurd hn (Nat.not_lt_zero _)
  | succ b ih =>
    intro d rest hn hd
    refine .peek ?_
    cases d with
    | noCall =>
      rw [tokens, List.nil_append, if_neg (fits_noCall.mp hd)]
      exact .pure
    | callOn s args s' more =>
      obtain ⟨hargs, hmore⟩ := fits_callOn.mp hd
      simp only [tokens, List.cons_append, List.append_assoc, List.length_cons,
        List.length_append] at hn ⊢
      rw [nextKind_cons, Token.ofMark, if_pos rfl]
      refine .advance (.peek ?_)
      cases args with
      | noArgument =>
        rw [tokens, List.nil_append, nextKind_cons, Token.ofMark, if_pos rfl]
        exact .advance (.bind (ih (by omega) more _ (by omega) hmore) .pure)
      | argument e es =>
        simp only [tokens, List.append_assoc, List.length_append] at hn ⊢
        rw [if_neg]
        · refine .bind (arguments hexpr n e es s' ?_ ?_ hargs)
            (.bind (ih (by omega) more _ (by omega) hmore) .pure)
          all_goals
            simp only [tokens, List.length_append]
            omega
        · intro hparen
          exact not_startsExpression (by decide) (hparen ▸ e.startsExpression _)

/-- All components of a block are read. -/
theorem components (hexpr : Complete n expr) (b : Nat) (hb : b ≤ n) :
    Complete b (Reader.components expr b) := by
  induction b with
  | zero => exact fun d rest hn _ => absurd hn (Nat.not_lt_zero _)
  | succ b ih =>
    intro d rest hn hd
    refine .peek ?_
    cases d with
    | lastComponent =>
      rw [tokens, List.nil_append, fits_lastComponent.mp hd, if_neg (by decide)]
      exact .pure
    | lastSemicolon s =>
      rw [tokens, List.cons_append, nextKind_cons, Token.ofMark, if_pos rfl]
      refine .advance (.peek ?_)
      rw [List.nil_append, if_pos (fits_lastSemicolon.mp hd)]
      exact .pure
    | nextComponent s e more =>
      obtain ⟨he, hmore⟩ := fits_nextComponent.mp hd
      simp only [tokens, List.cons_append, List.append_assoc, List.length_cons,
        List.length_append] at hn ⊢
      rw [nextKind_cons, Token.ofMark, if_pos rfl]
      refine .advance (.peek ?_)
      rw [if_neg]
      · exact .bind (hexpr e _ (by omega) he)
          (.bind (ih (by omega) more _ (by omega) hmore) .pure)
      · intro hbrace
        exact not_startsExpression (by decide) (hbrace ▸ e.startsExpression _)

/-- All definitions are read. -/
theorem definitions (hexpr : Complete n expr) (b : Nat) (hb : b ≤ n) :
    Complete (b + 1) (Reader.definitions expr b) := by
  induction b with
  | zero =>
    intro d rest hn
    cases d <;> simp at hn
  | succ b ih =>
    intro d rest hn hd
    cases d with
    | lastDefinition x s e s' =>
      obtain ⟨he, hin⟩ := fits_lastDefinition.mp hd
      simp only [tokens, List.cons_append, List.append_assoc, List.nil_append,
        List.length_cons, List.length_append] at hn ⊢
      refine .identifier (.take (.bind (hexpr e _ (by omega) he) (.take (.peek ?_))))
      rw [hin]
      exact .pure
    | definition x s e s' more =>
      obtain ⟨he, hmore⟩ := fits_definition.mp hd
      simp only [tokens, List.cons_append, List.append_assoc, List.length_cons,
        List.length_append] at hn ⊢
      refine .identifier (.take (.bind (hexpr e _ (by omega) he) (.take (.peek ?_))))
      rw [if_pos (by cases more <;> rfl)]
      exact .bind (ih (by omega) more _ (by omega) hmore) .pure

theorem parameters (b : Nat) (x : Ident) (d : Phrase .moreParameters) (hb : d.tokens.length < b)
    (hd : d.Fits rest) :
    Gives (Reader.parameters b) (.ofIdent x :: (d.tokens ++ rest)) (x, d) rest := by
  induction b generalizing d x with
  | zero => omega
  | succ b ih =>
    refine .identifier (.peek ?_)
    cases d with
    | lastParameter =>
      rw [tokens, List.nil_append, fits_lastParameter.mp hd, if_neg (by decide)]
      exact .pure
    | nextParameter s y more =>
      rw [if_pos (by rfl)]
      simp only [tokens, List.cons_append, List.length_cons] at hb ⊢
      exact .advance (.bind (ih y more (by omega) (fits_nextParameter.mp hd)) .pure)

theorem parameterList (n : Nat) : Complete (n + 1) (Reader.parameterList n) := by
  intro d rest hn hd
  refine .peek ?_
  cases d with
  | noParameter =>
    rw [tokens, List.nil_append, if_pos (fits_noParameter.mp hd)]
    exact .pure
  | parameter x more =>
    rw [if_neg (by rintro ⟨⟩)]
    simp only [tokens, List.cons_append, List.length_cons] at hn ⊢
    exact .bind (parameters n x more (by omega) (fits_parameter.mp hd)) .pure

/-! ### Layers -/

/-- Every primary of the grammar is read. -/
theorem primary (hexpr : Complete n expr) : Complete (n + 1) (Reader.primary expr n) := by
  intro d rest hn hd
  refine .peek ?_
  cases d with
  | int | null | prim | var => exact .advance .pure
  | bool s b => cases b <;> exact .advance .pure
  | parens s e s' =>
    simp only [tokens, List.cons_append, List.append_assoc, List.nil_append, List.length_cons,
      List.length_append] at hn ⊢
    exact .advance (.bind (hexpr e _ (by omega) (fits_parens.mp hd)) (.take .pure))
  | block s e more s' =>
    obtain ⟨he, hmore⟩ := fits_block.mp hd
    have hpos := e.tokens_length_pos
    simp only [tokens, List.cons_append, List.append_assoc, List.nil_append, List.length_cons,
      List.length_append] at hn ⊢
    exact .advance (.bind (hexpr e _ (by omega) he)
      (.bind (components hexpr n le_rfl more _ (by omega) hmore) (.take .pure)))
  | cond s t s1 a s2 b =>
    obtain ⟨ht, ha, hb⟩ := fits_cond.mp hd
    simp only [tokens, List.cons_append, List.append_assoc, List.length_cons,
      List.length_append] at hn ⊢
    exact .advance (.bind (hexpr t _ (by omega) ht) (.take (.bind (hexpr a _ (by omega) ha)
      (.take (.bind (hexpr b _ (by omega) hb) .pure)))))
  | letIn s kind defs s1 body =>
    obtain ⟨hdefs, hbody⟩ := fits_letIn.mp hd
    simp only [tokens, List.cons_append, List.append_assoc, List.length_cons,
      List.length_append] at hn ⊢
    have hform : Gives (Reader.letIn expr n kind s) _ (.letIn s kind defs s1 body) rest :=
      .bind (definitions hexpr n le_rfl defs _ (by omega) hdefs)
        (.take (.bind (hexpr body _ (by omega) hbody) .pure))
    cases kind with
    | plain | recursive => exact .advance hform
  | map s params s1 body =>
    obtain ⟨hparams, hbody⟩ := fits_map.mp hd
    simp only [tokens, List.cons_append, List.append_assoc, List.length_cons,
      List.length_append] at hn ⊢
    exact .advance (.bind (parameterList n params _ (by omega) hparams)
      (.take (.bind (hexpr body _ (by omega) hbody) .pure)))

theorem call (hexpr : Complete n expr) : Complete (n + 1) (Reader.call expr n) := by
  intro d rest hn hd
  cases d with
  | call f more =>
    obtain ⟨hf, hmore⟩ := fits_call.mp hd
    have hpos := f.tokens_length_pos
    simp only [tokens, List.append_assoc, List.length_append] at hn ⊢
    exact .bind (primary hexpr f _ (by omega) hf)
      (.bind (calls hexpr n le_rfl more _ (by omega) hmore) .pure)

theorem sum (hexpr : Complete n expr) : Complete (n + 1) (Reader.sum expr n) :=
  chain operatorsOf_sum
    (chain operatorsOf_product (unary (call hexpr) n le_rfl))

theorem comparison (hexpr : Complete n expr) : Complete (n + 1) (Reader.comparison expr n) := by
  intro d rest hn hd
  cases d with
  | uncompared e =>
    obtain ⟨he, hstop⟩ := fits_uncompared.mp hd
    refine .bind (sum hexpr e rest hn he) (.peek ?_)
    rw [comparisonOp_eq_none.mpr hstop]
    exact .pure
  | compare l s op hop r =>
    obtain ⟨hl, hr, hstop⟩ := fits_compare.mp hd
    simp only [tokens, List.cons_append, List.append_assoc, List.length_cons,
      List.length_append] at hn ⊢
    refine .bind (sum hexpr l _ (by omega) hl) (.peek ?_)
    simp only [nextKind_cons, Token.ofMark, comparisonOp_eq_some.mpr ⟨hop, rfl⟩, hop, dif_pos]
    refine .advance (.bind (sum hexpr r _ (by omega) hr) (.peek ?_))
    rw [comparisonOp_eq_none.mpr hstop]
    exact .pure

/-- Every expression of the grammar is read. -/
theorem assignment (hexpr : Complete n expr) : Complete (n + 1) (Reader.assignment expr n) := by
  have hdisjunction : Complete (n + 1) (Reader.disjunction expr n) :=
    chain operatorsOf_or (chain operatorsOf_and (comparison hexpr))
  intro d rest hn hd
  cases d with
  | unassigned e =>
    obtain ⟨he, hstop⟩ := fits_unassigned.mp hd
    have hnone : assignOp (nextKind rest) = none :=
      Option.eq_none_iff_forall_ne_some.mpr
        (fun o ho => hstop (assignOp_eq_some.mp ho).2)
    refine .bind (hdisjunction e rest hn he) (.peek ?_)
    rw [hnone]
    exact .pure
  | assign l s r =>
    obtain ⟨hl, hr⟩ := fits_assign.mp hd
    have hpos := l.tokens_length_pos
    simp only [tokens, List.cons_append, List.append_assoc, List.length_cons,
      List.length_append] at hn ⊢
    refine .bind (hdisjunction l _ (by omega) hl) (.peek ?_)
    rw [nextKind_cons, Token.ofMark, assignOp_eq_some.mpr ⟨rfl, rfl⟩]
    exact .advance (.bind (hexpr r _ (by omega) hr) .pure)

/-- Every expression of fewer than `n` tokens is read. -/
theorem expression (n : Nat) : Complete n (Reader.expression n) := by
  induction n with
  | zero => exact fun d rest hn _ => absurd hn (Nat.not_lt_zero _)
  | succ n ih => exact assignment ih

end Complete

/-! ## Programs -/

theorem Phrase.kind_ne_eof (d : Phrase nt) : ∀ t ∈ d.tokens, t.kind ≠ .eof := by
  induction d with
  | apply s op e ih => cases op <;> simpa [UnaryOp.token] using ih
  | bool s b => cases b <;> simp [Token.ofWord]
  | _ => simp_all [or_imp, Token.ofMark, Token.ofWord, Token.ofIdent]

variable {ts : List Token} {e : NamedExpr}

/-- A phrase at the start of a text that ends in the only end mark, with nothing but the end
behind it, is the whole text. -/
theorem Phrase.tokens_eq_of_append (d : Phrase nt) (hts : ∀ t ∈ ts, t.kind ≠ .eof)
    (h : ts ++ [z] = d.tokens ++ rest) (hz : z.kind = .eof) (hrest : nextKind rest = .eof) :
    d.tokens = ts ∧ rest = [z] := by
  rcases List.append_eq_append_iff.mp h with ⟨us, htokens, hus⟩ | ⟨us, hts', hus⟩
  · -- The phrase does not reach into the end mark.
    cases us with
    | nil => exact ⟨by simpa using htokens, by simpa using hus.symm⟩
    | cons u us =>
      have hu : u = z := by simp_all
      exact absurd hz (d.kind_ne_eof z (by simp [htokens, hu]))
  · -- What is left behind the phrase starts with the end mark, so it is not part of `ts`.
    cases us with
    | nil => exact ⟨by simpa using hts'.symm, by simpa using hus⟩
    | cons u us =>
      have hu : u.kind = .eof := by
        rw [hus] at hrest
        exact hrest
      exact absurd hu (hts u (by simp [hts']))

/-- What is read is the tree of a phrase in front of the end of the text. -/
theorem exists_phrase_of_parseTokens (hz : z.kind = .eof) (h : parseTokens (ts ++ [z]) = .ok e) :
    ∃ (d : Phrase (.level .assignment)) (rest : List Token),
      ts ++ [z] = d.tokens ++ rest ∧ nextKind rest = .eof ∧ d.Fits rest ∧ d.tree = e := by
  obtain ⟨d, rest, ⟨htokens, hfits⟩, hend, hok⟩ | ⟨f, _, _, _, -, hstop⟩ :=
    parseTokens_ends ⟨ts, z, rfl, hz⟩
  · cases hok.symm.trans h
    exact ⟨d, rest, htokens, hend, hfits, rfl⟩
  · cases hstop.symm.trans h

/-- A phrase that is a whole text is read. -/
theorem parseTokens_tokens (d : Phrase (.level .assignment)) (hz : z.kind = .eof)
    (hmaximal : d.Maximal .eof) : parseTokens (d.tokens ++ [z]) = .ok d.tree := by
  have hfits : d.Fits [z] := by
    rw [Fits, nextKind_cons, hz]
    exact ⟨hmaximal, rfl⟩
  have hlength : d.tokens.length < (d.tokens ++ [z]).length + 2 := by
    rw [List.length_append]
    omega
  have hexpression : Gives (expression ((d.tokens ++ [z]).length + 2)) (d.tokens ++ [z]) d.tree
      [z] := by
    rw [Reader.expression_eq, ← bind_pure_comp]
    exact .bind (Complete.expression _ d [z] hlength hfits) .pure
  obtain ⟨c, hrun, hc⟩ := hexpression _ (ParseState.at_ofTokens hz)
  have hend : c.current.kind = .eof := hc.kind_eq.trans hz
  have hprogram : program (d.tokens ++ [z]) = (some d.tree, c) := by
    rw [program, hrun]
    simp [hend]
  simp [parseTokens, ParseResult.ofTokens, hprogram, hc.2.2]

/-- A phrase that is a whole text is what the reader gives there, so a text has one reading. -/
instance (ts : List Token) : Subsingleton (Reading ts) where
  allEq := by
    rintro ⟨d, rfl, hd⟩ ⟨d', htokens, hd'⟩
    have hgives := Complete.expression _ d [⟨.eof, .synthetic⟩] (Nat.lt_succ_self _) ⟨hd, rfl⟩
    rw [← htokens] at hgives
    have hgives' := Complete.expression _ d' [⟨.eof, .synthetic⟩] (Nat.lt_succ_self _) ⟨hd', rfl⟩
    obtain rfl := hgives.unique hgives' rfl
    rfl

/-- The parser accepts exactly the token lists that the grammar derives, and returns the tree of
their one reading. -/
theorem parseTokens_eq_ok_iff_reading (ts : List Token) (z : Token) (hz : z.kind = .eof)
    (hts : ∀ t ∈ ts, t.kind ≠ .eof) :
    (∀ e, parseTokens (ts ++ [z]) = .ok e ↔ ∃ r : Reading ts, r.program = e) ∧
      ∀ r r' : Reading ts, r = r' := by
  refine ⟨fun e => ⟨fun h => ?_, ?_⟩, fun r r' => Subsingleton.elim r r'⟩
  · obtain ⟨d, rest, htokens, hend, hfits, rfl⟩ := exists_phrase_of_parseTokens hz h
    obtain ⟨rfl, rfl⟩ := d.tokens_eq_of_append hts htokens hz hend
    have hmaximal := hfits.1
    rw [nextKind_cons, hz] at hmaximal
    exact ⟨⟨d, rfl, hmaximal⟩, rfl⟩
  · rintro ⟨⟨d, rfl, hmaximal⟩, rfl⟩
    exact parseTokens_tokens d hz hmaximal

/-- The tokens of `letrec f := map n to n - 1; in if f(2) < 3 then -f(0) else {f(1);}`. -/
def countdownTokens : List Token :=
  let mark (m : Mark) : Token := .ofMark m .synthetic
  let word (w : Keyword) : Token := .ofWord w .synthetic
  let name (x : String) : Token := .ofIdent ⟨x, .synthetic⟩
  let int (n : Int) : Token := ⟨.int n, .synthetic⟩
  [word .kwLetRec, name "f", mark .colonEqual, word .kwMap, name "n", word .kwTo, name "n",
    mark .minus, int 1, mark .semicolon, word .kwIn, word .kwIf, name "f", mark .leftParen, int 2,
    mark .rightParen, mark .less, int 3, word .kwThen, mark .minus, name "f", mark .leftParen,
    int 0,
    mark .rightParen, word .kwElse, mark .leftBrace, name "f", mark .leftParen, int 1,
    mark .rightParen, mark .semicolon, mark .rightBrace]

/-- The program that `countdownTokens` is read as. -/
def countdown : NamedExpr :=
  let f : Ident := .synthetic "f"
  let n : Ident := .synthetic "n"
  let int (k : Int) : NamedExpr := .int .synthetic k
  let call (k : Int) : NamedExpr := .mkApp (.mkVar f) [int k]
  .letIn .synthetic .recursive [(f, .mkMap [n] (.mkBinary .sub (.mkVar n) (int 1)))] ()
    (.mkCond (.mkBinary .lt (call 2) (int 3)) (.unary .synthetic .neg (call 0))
      (.block .synthetic [call 1]))

theorem reading_countdownTokens :
    (∃ r : Reading countdownTokens, r.program = countdown) ∧
      ∀ r r' : Reading countdownTokens, r = r' := by
  have h := parseTokens_eq_ok_iff_reading countdownTokens ⟨.eof, .synthetic⟩ rfl (by decide)
  have hread : parseTokens (countdownTokens ++ [⟨.eof, .synthetic⟩]) = .ok countdown := by cbv
  exact ⟨(h.1 countdown).mp hread, h.2⟩

end Mapling
