import Mapling.Proofs.Syntax.Reader

/-! # The parser reads only its grammar, and stops

In front of some tokens a parser gives what it has read and the tokens that are left, and reports
nothing; or it gives nothing, and reports the first of the tokens that are left and no other
(`Parser.Proceeds`). It never gives up because it is too deep: before an expression is read inside
another one, and before one more item of a row is read, a token has been passed over, and the end of
the text is not passed over.

The reader of a part of the grammar is sound below `n` tokens if whatever it gives in front of fewer
tokens fits where it was read (`Sound`). Each function of the reader is sound if the function for
expressions that it calls is. -/

namespace Mapling

variable {k : TokenKind} {s : Span} {ch : Chain} {op : TokenKind → Option BinaryOp}

def EndsText (ts : List Token) : Prop := ∃ us z, ts = us ++ [z] ∧ z.kind = .eof

structure LeftOf (ts us : List Token) : Prop where
  suffix : us <:+ ts
  more : us ≠ []

variable {ts us : List Token}

/-- Another token follows every token but the end of the text. -/
theorem LeftOf.tail (hts : EndsText ts) {t : Token} (h : LeftOf ts (t :: us)) (hk : t.kind ≠ .eof) :
    LeftOf ts us := by
  refine ⟨(List.suffix_cons t us).trans h.suffix, ?_⟩
  rintro rfl
  obtain ⟨before, z, rfl, hz⟩ := hts
  obtain ⟨vs, hvs⟩ := h.suffix
  obtain ⟨-, hlast⟩ := List.append_inj' hvs rfl
  rw [List.singleton_inj.mp hlast] at hk
  exact hk hz

/-! ## Steps of the parser -/

namespace Parser

variable {α β : Type} {p : Parser α} {m n : Nat} {Q : α → List Token → Prop}
  {R : β → List Token → Prop}

theorem outcome_bind (p : Parser α) (f : α → Parser β) (c : ParseState) :
    (p >>= f).outcome c = match p.outcome c with
      | (some a, c') => (f a).outcome c'
      | (none, c') => (none, c') := by
  simp only [outcome, OptionT.run_bind, Option.elimM, StateT.run_bind]
  rcases p.run.run c with ⟨_ | a, c'⟩
  · rfl
  · rfl

/-- What the parser gives in front of the tokens `us` is in `Q`, with the tokens that are left; or
it gives nothing, and reports the first of the tokens that are left. -/
def Proceeds (ts us : List Token) (p : Parser α) (Q : α → List Token → Prop) : Prop :=
  ∀ c : ParseState, c.rest = us → match p.outcome c with
    | (some a, c') => c'.faults = c.faults ∧ LeftOf ts c'.rest ∧ Q a c'.rest
    | (none, c') => c'.rest <:+ ts ∧ ∃ f s, c'.rest.head?.map Token.span = some s ∧
        c'.faults = c.faults ++ [(f, s)]

namespace Proceeds

theorem bind {f : α → Parser β} (hp : Proceeds ts us p Q)
    (hf : ∀ a vs, LeftOf ts vs → Q a vs → Proceeds ts vs (f a) R) : Proceeds ts us (p >>= f) R := by
  intro c hc
  have h := hp c hc
  rw [outcome_bind]
  rcases hrun : p.outcome c with ⟨_ | a, c'⟩
  · rw [hrun] at h
    exact h
  · rw [hrun] at h
    obtain ⟨hfaults, hleft, hQ⟩ := h
    -- nothing was reported yet, so what comes next reports for both
    have hnext := hf a c'.rest hleft hQ c' rfl
    rw [hfaults] at hnext
    exact hnext

variable (hus : LeftOf ts us)
include hus

theorem pure {a : α} (h : Q a us) : Proceeds ts us (pure a) Q := by
  rintro c rfl
  exact ⟨rfl, hus, h⟩

theorem current {c : ParseState} (hc : c.rest = us) :
    ∃ vs, us = c.current :: vs ∧ c.next.rest = vs := by
  obtain ⟨t, vs, rfl⟩ := List.exists_cons_of_ne_nil hus.more
  exact ⟨vs, by simp [ParseState.current, hc], by simp [ParseState.next, hc]⟩

theorem fail {f : TokenKind → ParseFault} : Proceeds ts us (fail f : Parser α) Q := by
  intro c hc
  obtain ⟨vs, hvs, -⟩ := current hus hc
  have hhead : c.rest.head?.map Token.span = some c.current.span := by
    rw [hc, hvs]
    rfl
  exact ⟨hc ▸ hus.suffix, f c.current.kind, c.current.span, hhead, rfl⟩

theorem peek {f : TokenKind → Parser α} (h : Proceeds ts us (f (nextKind us)) Q) :
    Proceeds ts us (peek >>= f) Q := by
  intro c hc
  obtain ⟨vs, hvs, -⟩ := current hus hc
  have hkind : c.current.kind = nextKind us := by rw [hvs]; rfl
  rw [← hkind] at h
  exact h c hc

theorem fail_bind {f : TokenKind → ParseFault} {g : β → Parser α} :
    Proceeds ts us (Parser.fail f >>= g) Q :=
  bind (Q := fun _ _ => False) (fail hus) (fun _ _ _ h => h.elim)

/-- There is no room for a row without a token. -/
theorem of_zero (hn : us.length ≤ 0) : Proceeds ts us p Q :=
  absurd (List.length_eq_zero_iff.mp (Nat.le_zero.mp hn)) hus.more

variable (hts : EndsText ts)
include hts

/-- Passing over a token that has been looked at. -/
theorem advance {f : Token → Parser α} (hk : nextKind us = k) (hne : k ≠ .eof)
    (hf : ∀ s vs, us = ⟨k, s⟩ :: vs → vs.length + 1 = us.length → LeftOf ts vs →
      Proceeds ts vs (f ⟨k, s⟩) Q) : Proceeds ts us (advance >>= f) Q := by
  intro c hc
  obtain ⟨vs, rfl, hnext⟩ := current hus hc
  subst hk
  exact hf c.current.span vs rfl rfl (hus.tail hts hne) c.next hnext

theorem take {f : Span → Parser α} (hne : k ≠ .eof)
    (hf : ∀ s vs, us = ⟨k, s⟩ :: vs → vs.length + 1 = us.length → LeftOf ts vs →
      Proceeds ts vs (f s) Q) : Proceeds ts us (Reader.take k >>= f) Q := by
  rw [Reader.take, bind_assoc]
  refine peek hus ?_
  split
  · rename_i hk
    rw [bind_assoc]
    exact advance hus hts hk hne hf
  · exact fail_bind hus

theorem identifier {f : Ident → Parser α}
    (hf : ∀ x vs, us = .ofIdent x :: vs → vs.length + 1 = us.length → LeftOf ts vs →
      Proceeds ts vs (f x) Q) : Proceeds ts us (identifier >>= f) Q := by
  rw [Parser.identifier, bind_assoc]
  refine peek hus ?_
  split
  · rename_i name hk
    rw [bind_assoc]
    exact advance hus hts hk (by rintro ⟨⟩) (fun s => hf ⟨name, s⟩)
  · split
    · exact fail_bind hus
    · exact fail_bind hus

end Proceeds

end Parser

/-! ## Soundness -/

open Mapling.Parser Mapling.Phrase

def ReadFrom {nt : Nonterminal} (us : List Token) (d : Phrase nt) (vs : List Token) : Prop :=
  us = d.tokens ++ vs ∧ d.Fits vs

section

variable {nt : Nonterminal} (ts : List Token) (n : Nat)

/-- In front of fewer than `n` tokens the reader passes over a token, and whatever it gives fits
where it was read. -/
def Sound (q : Parser (Phrase nt)) : Prop :=
  ∀ us, LeftOf ts us → us.length < n →
    Proceeds ts us q (fun d vs => vs.length < us.length ∧ ReadFrom us d vs)

/-- Whatever the reader gives fits together with a token of the given kind in front of it. -/
def SoundAfter (k : TokenKind) (q : Span → Parser (Phrase nt)) : Prop :=
  ∀ s us, LeftOf ts us → us.length < n →
    Proceeds ts us (q s) (fun d vs => vs.length ≤ us.length ∧ ReadFrom (⟨k, s⟩ :: us) d vs)

end

namespace Sound

variable {m n : Nat} {expr : Parser (Phrase (.level .assignment))}

section

variable (hts : EndsText ts)
include hts

/-- What was read before a chain goes on is not carried on by what follows. -/
theorem operands (hop : OperatorsOf ch op) {operand : Parser (Phrase (.level ch.operand))}
    (hoperand : Sound ts m operand) (hus : LeftOf ts us) (hn : us.length ≤ n) (hm : us.length ≤ m)
    (hstop : ch.operand.carriedOnBy (nextKind us) = false) :
    Proceeds ts us (Reader.operands ch op operand n)
      (fun d vs => vs.length ≤ us.length ∧ ReadFrom us d vs) := by
  induction n generalizing us with
  | zero => exact .of_zero hus hn
  | succ n ih =>
    refine .peek hus ?_
    cases ho : op (nextKind us) with
    | none =>
      refine .pure hus ⟨le_rfl, rfl, fits_noOperand.mpr ?_⟩
      rw [← Bool.not_eq_true, carriedOnBy_chain, Bool.eq_false_iff.mp hstop |> eq_false, false_or]
      rintro ⟨o, hmem⟩
      rw [(hop _ o).mpr hmem] at ho
      cases ho
    | some o =>
      obtain ⟨hmem, hk⟩ := (hop _ o).mp ho
      simp only [hmem, dif_pos]
      refine .advance hus hts hk (by rintro ⟨⟩) (fun s vs hvs hlen hl1 => ?_)
      subst hvs
      refine .bind (hoperand vs hl1 (by omega)) ?_
      rintro e ws hl2 ⟨hlt, rfl, he⟩
      refine .bind (ih hl2 (by omega) (by omega) he.2) ?_
      rintro more zs hl3 ⟨hle, rfl, hmore⟩
      refine .pure hl3 ⟨by omega, ?_, fits_operand.mpr ⟨he, hmore⟩⟩
      simp only [tokens, Token.ofMark, List.cons_append, List.append_assoc]

theorem chain (hop : OperatorsOf ch op) {operand : Parser (Phrase (.level ch.operand))}
    (hoperand : Sound ts (n + 1) operand) : Sound ts (n + 1) (Reader.chain ch op operand n) := by
  intro us hus hn
  refine .bind (hoperand us hus hn) ?_
  rintro first vs hl1 ⟨hlt, rfl, hfirst⟩
  refine .bind (operands hts hop hoperand hl1 (by omega) (by omega) hfirst.2) ?_
  rintro more ws hl2 ⟨hle, rfl, hmore⟩
  exact .pure hl2 ⟨by omega, (List.append_assoc _ _ _).symm, fits_chain.mpr ⟨hfirst, hmore⟩⟩

theorem unary {operand : Parser (Phrase (.level .call))} (hoperand : Sound ts (n + 1) operand) :
    Sound ts (n + 1) (Reader.unary operand n) := by
  have hrow : ∀ b us, LeftOf ts us → us.length ≤ b → us.length ≤ n →
      Proceeds ts us (Reader.unary operand b)
        (fun d vs => vs.length < us.length ∧ ReadFrom us d vs) := by
    intro b
    induction b with
    | zero => exact fun us hus hb _ => .of_zero hus hb
    | succ b ih =>
      intro us hus hb hn
      refine .peek hus ?_
      cases ho : unaryOp (nextKind us) with
      | none => exact .bind (hoperand us hus (by omega)) (fun e vs hl1 he => .pure hl1 he)
      | some o =>
        refine .advance hus hts (unaryOp_eq_some.mp ho) (by cases o <;> rintro ⟨⟩)
          (fun s vs hvs hlen hl1 => ?_)
        subst hvs
        refine .bind (ih vs hl1 (by omega) (by omega)) ?_
        rintro e ws hl2 ⟨hlt, rfl, he⟩
        exact .pure hl2 ⟨by omega, rfl, he⟩
  exact fun us hus hn => hrow n us hus (by omega) (by omega)

/-! ### Lists -/

theorem parameters (hus : LeftOf ts us) (hn : us.length ≤ n) :
    Proceeds ts us (Reader.parameters n) (fun r vs => vs.length ≤ us.length ∧
      (nextKind vs = .keyword .kwTo → ReadFrom us (parameter r.1 r.2) vs)) := by
  induction n generalizing us with
  | zero => exact .of_zero hus hn
  | succ n ih =>
    refine .identifier hus hts (fun x vs hvs hlen hl1 => .peek hl1 ?_)
    subst hvs
    split
    · rename_i hcomma
      refine .advance hl1 hts hcomma (by rintro ⟨⟩) (fun s ws hws hlen' hl2 => ?_)
      subst hws
      refine .bind (ih hl2 (by omega)) ?_
      rintro ⟨y, more⟩ zs hl3 ⟨hle, hmore⟩
      refine .pure hl3 ⟨by omega, fun hto => ?_⟩
      obtain ⟨rfl, hfits⟩ := hmore hto
      exact ⟨rfl, fits_parameter.mpr (fits_nextParameter.mpr (fits_parameter.mp hfits))⟩
    · exact .pure hl1 ⟨by omega, fun hto =>
        ⟨rfl, fits_parameter.mpr (fits_lastParameter.mpr hto)⟩⟩

variable (hexpr : Sound ts m expr)
include hexpr

/-- Arguments with their closing parenthesis, of which the list is the last to be read. -/
theorem arguments (hus : LeftOf ts us) (hn : us.length ≤ n) (hm : us.length < m) :
    Proceeds ts us (Reader.arguments expr n) (fun r vs => vs.length < us.length ∧
      us = r.1.1.tokens ++ (r.1.2.tokens ++ .ofMark .rightParen r.2 :: vs) ∧
      (argument r.1.1 r.1.2).Fits (.ofMark .rightParen r.2 :: vs)) := by
  induction n generalizing us with
  | zero => exact .of_zero hus hn
  | succ n ih =>
    refine .bind (hexpr us hus hm) ?_
    rintro e vs hl1 ⟨hlt, rfl, he⟩
    refine .peek hl1 ?_
    split
    · rename_i hcomma
      refine .advance hl1 hts hcomma (by rintro ⟨⟩) (fun s ws hws hlen hl2 => ?_)
      subst hws
      refine .bind (ih hl2 (by omega) (by omega)) ?_
      rintro ⟨⟨e', more⟩, s'⟩ zs hl3 ⟨hlt', rfl, hmore⟩
      refine .pure hl3 ⟨by omega, ?_, fits_argument.mpr
        ⟨?_, fits_nextArgument.mpr (fits_argument.mp hmore)⟩⟩
      · simp only [tokens, Token.ofMark, List.cons_append, List.append_assoc]
      · simpa only [tokens, Token.ofMark, List.cons_append, List.append_assoc] using he
    · refine .take hl1 hts (by rintro ⟨⟩) (fun s ws hws hlen hl2 => ?_)
      subst hws
      exact .pure hl2 ⟨by omega, rfl, fits_argument.mpr ⟨he, fits_lastArgument.mpr rfl⟩⟩

theorem calls (hus : LeftOf ts us) (hn : us.length ≤ n) (hm : us.length ≤ m) :
    Proceeds ts us (Reader.calls expr m n)
      (fun d vs => vs.length ≤ us.length ∧ ReadFrom us d vs) := by
  induction n generalizing us with
  | zero => exact .of_zero hus hn
  | succ n ih =>
    refine .peek hus ?_
    split
    · rename_i hopen
      refine .advance hus hts hopen (by rintro ⟨⟩) (fun s vs hvs hlen hl1 => .peek hl1 ?_)
      subst hvs
      split
      · rename_i hclose
        refine .advance hl1 hts hclose (by rintro ⟨⟩) (fun s' ws hws hlen' hl2 => ?_)
        subst hws
        refine .bind (ih hl2 (by omega) (by omega)) ?_
        rintro more zs hl3 ⟨hle, rfl, hmore⟩
        exact .pure hl3 ⟨by omega, rfl, fits_callOn.mpr ⟨fits_noArgument.mpr rfl, hmore⟩⟩
      · refine .bind (arguments hts hexpr hl1 (by omega) (by omega)) ?_
        rintro ⟨⟨e, es⟩, s'⟩ ws hl2 ⟨hlt, rfl, hargs⟩
        refine .bind (ih hl2 (by omega) (by omega)) ?_
        rintro more zs hl3 ⟨hle, rfl, hmore⟩
        refine .pure hl3 ⟨by omega, ?_, fits_callOn.mpr ⟨hargs, hmore⟩⟩
        simp only [tokens, Token.ofMark, List.cons_append, List.append_assoc]
    · rename_i hopen
      exact .pure hus ⟨le_rfl, rfl, fits_noCall.mpr hopen⟩

/-- What is read as the components of a block is derived from the tokens that were read. -/
theorem components (hus : LeftOf ts us) (hn : us.length ≤ n) (hm : us.length ≤ m) :
    Proceeds ts us (Reader.components expr n) (fun d vs => vs.length ≤ us.length ∧
      (nextKind vs = .mark .rightBrace → ReadFrom us d vs)) := by
  induction n generalizing us with
  | zero => exact .of_zero hus hn
  | succ n ih =>
    refine .peek hus ?_
    split
    · rename_i hsemicolon
      refine .advance hus hts hsemicolon (by rintro ⟨⟩) (fun s vs hvs hlen hl1 => .peek hl1 ?_)
      subst hvs
      split
      · exact .pure hl1 ⟨by omega, fun hbrace => ⟨rfl, fits_lastSemicolon.mpr hbrace⟩⟩
      · refine .bind (hexpr vs hl1 (by omega)) ?_
        rintro e ws hl2 ⟨hlt, rfl, he⟩
        refine .bind (ih hl2 (by omega) (by omega)) ?_
        rintro more zs hl3 ⟨hle, hmore⟩
        refine .pure hl3 ⟨by omega, fun hbrace => ?_⟩
        obtain ⟨rfl, hfits⟩ := hmore hbrace
        refine ⟨?_, fits_nextComponent.mpr ⟨he, hfits⟩⟩
        simp only [tokens, Token.ofMark, List.cons_append, List.append_assoc]
    · exact .pure hus ⟨le_rfl, fun hbrace => ⟨rfl, fits_lastComponent.mpr hbrace⟩⟩

/-- What is read as definitions is derived from the tokens that were read. -/
theorem definitions (hus : LeftOf ts us) (hn : us.length ≤ n) (hm : us.length ≤ m) :
    Proceeds ts us (Reader.definitions expr n) (fun d vs => vs.length ≤ us.length ∧
      (nextKind vs = .keyword .kwIn → ReadFrom us d vs)) := by
  induction n generalizing us with
  | zero => exact .of_zero hus hn
  | succ n ih =>
    refine .identifier hus hts (fun x vs hvs hlen hl1 => ?_)
    subst hvs
    refine .take hl1 hts (by rintro ⟨⟩) (fun s ws hws hlen1 hl2 => ?_)
    subst hws
    refine .bind (hexpr ws hl2 (by omega)) ?_
    rintro e zs hl3 ⟨hlt, rfl, he⟩
    refine .take hl3 hts (by rintro ⟨⟩) (fun s' us' hus' hlen2 hl4 => .peek hl4 ?_)
    subst hus'
    split
    · refine .bind (ih hl4 (by omega) (by omega)) ?_
      rintro more vs hl5 ⟨hle, hmore⟩
      refine .pure hl5 ⟨by omega, fun hin => ?_⟩
      obtain ⟨rfl, hfits⟩ := hmore hin
      refine ⟨?_, fits_definition.mpr ⟨he, hfits⟩⟩
      simp only [tokens, Token.ofMark, Token.ofIdent, List.cons_append, List.append_assoc]
    · refine .pure hl4 ⟨by omega, fun hin => ⟨?_, fits_lastDefinition.mpr ⟨he, hin⟩⟩⟩
      simp only [tokens, Token.ofMark, Token.ofIdent, List.cons_append, List.append_assoc,
        List.nil_append]

end

/-! ### Forms -/

section

variable (hts : EndsText ts) (hexpr : Sound ts n expr)
include hts hexpr

theorem parens : SoundAfter ts n (.mark .leftParen) (Reader.parens expr) := by
  intro s us hus hn
  refine .bind (hexpr us hus hn) ?_
  rintro e vs hl1 ⟨hlt, rfl, he⟩
  refine .take hl1 hts (by rintro ⟨⟩) (fun s' ws hws hlen hl2 => ?_)
  subst hws
  refine .pure hl2 ⟨by omega, ?_, fits_parens.mpr he⟩
  simp only [tokens, Token.ofMark, List.cons_append, List.append_assoc, List.nil_append]

theorem block : SoundAfter ts n (.mark .leftBrace) (Reader.block expr n) := by
  intro s us hus hn
  refine .bind (hexpr us hus hn) ?_
  rintro e vs hl1 ⟨hlt, rfl, he⟩
  refine .bind (components hts hexpr hl1 (by omega) (by omega)) ?_
  rintro more ws hl2 ⟨hle, hmore⟩
  refine .take hl2 hts (by rintro ⟨⟩) (fun s' zs hzs hlen hl3 => ?_)
  subst hzs
  obtain ⟨rfl, hfits⟩ := hmore rfl
  refine .pure hl3 ⟨by omega, ?_, fits_block.mpr ⟨he, hfits⟩⟩
  simp only [tokens, Token.ofMark, List.cons_append, List.append_assoc, List.nil_append]

theorem cond : SoundAfter ts n (.keyword .kwIf) (Reader.cond expr) := by
  intro s us hus hn
  refine .bind (hexpr us hus hn) ?_
  rintro t vs hl1 ⟨hlt, rfl, ht⟩
  refine .take hl1 hts (by rintro ⟨⟩) (fun s1 ws hws hlen hl2 => ?_)
  subst hws
  refine .bind (hexpr ws hl2 (by omega)) ?_
  rintro a zs hl3 ⟨hlt1, rfl, ha⟩
  refine .take hl3 hts (by rintro ⟨⟩) (fun s2 us' hus' hlen1 hl4 => ?_)
  subst hus'
  refine .bind (hexpr us' hl4 (by omega)) ?_
  rintro b vs' hl5 ⟨hlt2, rfl, hb⟩
  refine .pure hl5 ⟨by omega, ?_, fits_cond.mpr ⟨ht, ha, hb⟩⟩
  simp only [tokens, Token.ofWord, List.cons_append, List.append_assoc]

theorem letIn (kind : LetKind) :
    SoundAfter ts n (.keyword kind.word) (Reader.letIn expr n kind) := by
  intro s us hus hn
  refine .bind (definitions hts hexpr hus hn.le hn.le) ?_
  rintro defs vs hl1 ⟨hle, hdefs⟩
  refine .take hl1 hts (by rintro ⟨⟩) (fun s1 ws hws hlen hl2 => ?_)
  subst hws
  obtain ⟨rfl, hfits⟩ := hdefs rfl
  refine .bind (hexpr ws hl2 (by omega)) ?_
  rintro body zs hl3 ⟨hlt, rfl, hbody⟩
  refine .pure hl3 ⟨by omega, ?_, fits_letIn.mpr ⟨hfits, hbody⟩⟩
  simp only [tokens, Token.ofWord, List.cons_append, List.append_assoc]

theorem map : SoundAfter ts n (.keyword .kwMap) (Reader.map expr n) := by
  intro s us hus hn
  have hparams : Proceeds ts us (Reader.parameterList n) (fun d vs => vs.length ≤ us.length ∧
      (nextKind vs = .keyword .kwTo → ReadFrom us d vs)) := by
    refine .peek hus ?_
    split
    · exact .pure hus ⟨le_rfl, fun hto => ⟨rfl, fits_noParameter.mpr hto⟩⟩
    · exact .bind (parameters hts hus hn.le) (fun _ vs hl1 h => .pure hl1 h)
  refine .bind hparams ?_
  rintro params vs hl2 ⟨hle, hparams⟩
  refine .take hl2 hts (by rintro ⟨⟩) (fun s1 ws hws hlen hl3 => ?_)
  subst hws
  obtain ⟨rfl, hfits⟩ := hparams rfl
  refine .bind (hexpr ws hl3 (by omega)) ?_
  rintro body zs hl4 ⟨hlt, rfl, hbody⟩
  refine .pure hl4 ⟨by omega, ?_, fits_map.mpr ⟨hfits, hbody⟩⟩
  simp only [tokens, Token.ofWord, List.cons_append, List.append_assoc]

/-! ### Layers -/

/-- What is read as a primary is derived from the tokens that were read. -/
theorem primary : Sound ts (n + 1) (Reader.primary expr n) := by
  intro us hus hn
  refine .peek hus ?_
  by_cases hend : nextKind us = .eof
  · rw [hend]
    exact .fail hus
  -- the first token has been looked at, and every form reads it before anything else
  have hform : ∀ {k} {q : Span → Parser (Phrase (.level .primary))}, SoundAfter ts n k q →
      nextKind us = k → Proceeds ts us (advance >>= fun t => q t.span)
        (fun d vs => vs.length < us.length ∧ ReadFrom us d vs) := by
    intro k q hq hk
    refine .advance hus hts hk (hk ▸ hend) (fun s vs hvs hlen hl1 => ?_)
    subst hvs
    rw [← bind_pure (q s)]
    refine .bind (hq s vs hl1 (by omega)) ?_
    rintro d ws hl2 ⟨hle, hd⟩
    exact .pure hl2 ⟨by omega, hd⟩
  have hleaf : ∀ {k} (f : Span → Phrase (.level .primary)), (∀ s, (f s).tokens = [⟨k, s⟩]) →
      (∀ s k, (f s).Maximal k) → SoundAfter ts n k (fun s => Pure.pure (f s)) :=
    fun f hf hmax s us hus _ => .pure hus ⟨le_rfl, by rw [hf]; rfl, hmax s _, rfl⟩
  cases hk : nextKind us with
  | int m => exact hform (hleaf (fun s => .int s m) (fun _ => rfl) (fun _ _ => trivial)) hk
  | prim p => exact hform (hleaf (fun s => .prim s p) (fun _ => rfl) (fun _ _ => trivial)) hk
  | ident x => exact hform (hleaf (fun s => .var ⟨x, s⟩) (fun _ => rfl) (fun _ _ => trivial)) hk
  | keyword w =>
    cases w with
    | kwTrue => exact hform (hleaf (fun s => .bool s true) (fun _ => rfl) (fun _ _ => trivial)) hk
    | kwFalse =>
      exact hform (hleaf (fun s => .bool s false) (fun _ => rfl) (fun _ _ => trivial)) hk
    | kwNull => exact hform (hleaf .null (fun _ => rfl) (fun _ _ => trivial)) hk
    | kwIf => exact hform (cond hts hexpr) hk
    | kwLet => exact hform (letIn hts hexpr .plain) hk
    | kwLetRec => exact hform (letIn hts hexpr .recursive) hk
    | kwMap => exact hform (map hts hexpr) hk
    | _ => exact .fail hus
  | mark m =>
    cases m with
    | leftBrace => exact hform (block hts hexpr) hk
    | leftParen => exact hform (parens hts hexpr) hk
    | _ => exact .fail hus
  | eof => exact absurd hk hend

theorem call : Sound ts (n + 1) (Reader.call expr n) := by
  intro us hus hn
  refine .bind (primary hts hexpr us hus hn) ?_
  rintro f vs hl1 ⟨hlt, rfl, hf⟩
  refine .bind (calls hts hexpr hl1 (by omega) (by omega)) ?_
  rintro more ws hl2 ⟨hle, rfl, hmore⟩
  exact .pure hl2 ⟨by omega, (List.append_assoc _ _ _).symm, fits_call.mpr ⟨hf, hmore⟩⟩

theorem sum : Sound ts (n + 1) (Reader.sum expr n) :=
  chain hts operatorsOf_sum (chain hts operatorsOf_product (unary hts (call hts hexpr)))

theorem comparison : Sound ts (n + 1) (Reader.comparison expr n) := by
  intro us hus hn
  refine .bind (sum hts hexpr us hus hn) ?_
  rintro l vs hl1 ⟨hlt, rfl, hl⟩
  refine .peek hl1 ?_
  cases ho : comparisonOp (nextKind vs) with
  | none =>
    exact .pure hl1 ⟨hlt, rfl, fits_uncompared.mpr ⟨hl, comparisonOp_eq_none.mp ho⟩⟩
  | some op =>
    obtain ⟨hop, hk⟩ := comparisonOp_eq_some.mp ho
    simp only [hop, dif_pos]
    refine .advance hl1 hts hk (by rintro ⟨⟩) (fun s ws hws hlen hl2 => ?_)
    subst hws
    refine .bind (sum hts hexpr ws hl2 (by omega)) ?_
    rintro r zs hl3 ⟨hlt', rfl, hr⟩
    refine .peek hl3 ?_
    split
    · exact .fail hl3
    · rename_i hnone
      rw [Bool.not_eq_true, Option.isSome_eq_false_iff, Option.isNone_iff_eq_none] at hnone
      refine .pure hl3 ⟨by omega, ?_,
        fits_compare.mpr ⟨hl, hr, comparisonOp_eq_none.mp hnone⟩⟩
      simp only [tokens, Token.ofMark, List.cons_append, List.append_assoc]

/-- What is read as an expression is derived from the tokens that were read. -/
theorem assignment : Sound ts (n + 1) (Reader.assignment expr n) := by
  have hdisjunction : Sound ts (n + 1) (Reader.disjunction expr n) :=
    chain hts operatorsOf_or (chain hts operatorsOf_and (comparison hts hexpr))
  intro us hus hn
  refine .bind (hdisjunction us hus hn) ?_
  rintro l vs hl1 ⟨hlt, rfl, hl⟩
  refine .peek hl1 ?_
  cases ho : assignOp (nextKind vs) with
  | none =>
    refine .pure hl1 ⟨hlt, rfl, fits_unassigned.mpr ⟨hl, fun harrow => ?_⟩⟩
    rw [harrow] at ho
    cases ho
  | some op =>
    refine .advance hl1 hts (assignOp_eq_some.mp ho).2 (by rintro ⟨⟩)
      (fun s ws hws hlen hl2 => ?_)
    subst hws
    refine .bind (hexpr ws hl2 (by omega)) ?_
    rintro r zs hl3 ⟨hlt', rfl, hr⟩
    refine .pure hl3 ⟨by omega, ?_, fits_assign.mpr ⟨hl, hr⟩⟩
    simp only [tokens, Token.ofMark, List.cons_append, List.append_assoc]

end

/-- Whatever is read as an expression is one. -/
theorem expression (hts : EndsText ts) (n : Nat) : Sound ts n (Reader.expression n) := by
  induction n with
  | zero => exact fun us _ hn => absurd hn (Nat.not_lt_zero _)
  | succ n ih => exact assignment hts ih

end Sound

/-! ## Programs -/

/-- What is read as an expression is the tree of a phrase. -/
theorem Parser.proceeds_expression (hts : EndsText ts) :
    Proceeds ts ts (expression (ts.length + 2)) (fun e vs =>
      ∃ d : Phrase (.level .assignment), ReadFrom ts d vs ∧ d.tree = e) := by
  have hl0 : LeftOf ts ts := by
    obtain ⟨us, z, rfl, -⟩ := hts
    exact ⟨List.suffix_refl _, by simp⟩
  rw [Reader.expression_eq, ← bind_pure_comp]
  refine .bind (Sound.expression hts _ ts hl0 (by omega)) ?_
  rintro d vs hl1 ⟨-, hd⟩
  exact .pure hl1 ⟨d, hd, rfl⟩

/-- A program is read and nothing is reported, or the first token that is left is reported and
nothing else. -/
theorem Parser.program_ends (hts : EndsText ts) :
    (∃ (d : Phrase (.level .assignment)) (c : ParseState), ReadFrom ts d c.rest ∧
      nextKind c.rest = .eof ∧ program ts = (some d.tree, c) ∧ c.faults = []) ∨
    ∃ f read t left, ts = read ++ t :: left ∧
      (program ts).2.rest = t :: left ∧ (program ts).2.faults = [(f, t.span)] := by
  have hexpression := proceeds_expression hts (.ofTokens ts) rfl
  unfold program
  generalize (expression (ts.length + 2)).outcome (.ofTokens ts) = r at hexpression ⊢
  rcases r with ⟨_ | e, c⟩
  · obtain ⟨⟨read, hread⟩, f, s, hhead, hfaults⟩ := hexpression
    obtain ⟨t, ht, rfl⟩ := Option.map_eq_some_iff.mp hhead
    obtain ⟨left, hleft⟩ := List.head?_eq_some_iff.mp ht
    exact .inr ⟨f, read, t, left, by rw [← hleft, hread], hleft, hfaults⟩
  · obtain ⟨hfaults, hleft, d, hd, rfl⟩ := hexpression
    obtain ⟨left, hrest, -⟩ := Proceeds.current hleft rfl
    have hkind : nextKind c.rest = c.current.kind := by rw [hrest]; rfl
    by_cases hend : c.current.kind = .eof
    · refine .inl ⟨d, c, hd, hkind.trans hend, ?_, hfaults⟩
      simp [hend]
    · obtain ⟨read, hread⟩ := hleft.suffix
      refine .inr ⟨.expectedEnd c.current.kind, read, c.current, left, by rw [← hrest, hread], ?_⟩
      simp only [Option.isSome_some, ne_eq, hend, not_false_eq_true, and_self, if_true]
      exact ⟨hrest, congrArg (· ++ _) hfaults⟩

/-- A program is read, or one token is reported. -/
theorem parseTokens_ends (hts : EndsText ts) :
    (∃ (d : Phrase (.level .assignment)) (vs : List Token), ReadFrom ts d vs ∧
      nextKind vs = .eof ∧ parseTokens ts = .ok d.tree) ∨
    ∃ f read t left, ts = read ++ t :: left ∧
      parseTokens ts = .error ⟨none, [(f, t.span)]⟩ := by
  rcases Parser.program_ends hts with ⟨d, c, hd, hend, hprogram, hfaults⟩ |
    ⟨f, read, t, left, hread, -, hfaults⟩
  · refine .inl ⟨d, c.rest, hd, hend, ?_⟩
    simp [parseTokens, ParseResult.ofTokens, hprogram, hfaults]
  · refine .inr ⟨f, read, t, left, hread, ?_⟩
    simp [parseTokens, ParseResult.ofTokens, hfaults]

end Mapling
