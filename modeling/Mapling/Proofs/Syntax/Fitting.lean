import Mapling.Proofs.Syntax.Grammar

/-! # Where a phrase ends

What follows a phrase tells whether it goes on. A phrase fits in front of some tokens if the first
of them does not carry it on and its open-ended forms are maximal there (`Phrase.Fits`). Whether a
phrase fits is a question about its parts in front of what follows each of them, one equation for
each production; everything that is said about phrases and what follows them is drawn from these
equations. -/

namespace Mapling

variable {l : Level} {c : Chain} {body : Phrase (.level .assignment)}

/-! ## What carries a phrase on -/

def Level.operators : Level → List BinaryOp
  | .primary | .call | .unary => []
  | .chain .product => [.mul, .div]
  | .chain .sum => [.add, .sub, .mul, .div]
  | .comparison => BinaryOp.comparisons ++ [.add, .sub, .mul, .div]
  | .chain .conjunction => .and :: BinaryOp.comparisons ++ [.add, .sub, .mul, .div]
  | .chain .disjunction => .or :: .and :: BinaryOp.comparisons ++ [.add, .sub, .mul, .div]
  | .assignment => BinaryOp.all

/-- Whether a token carries on an expression of a layer that it follows. -/
def Level.carriedOnBy (l : Level) (k : TokenKind) : Bool :=
  (l != .primary && k == .mark .leftParen) || l.operators.any (fun op => k == .mark op.mark)

theorem carriedOnBy_iff {k : TokenKind} : l.carriedOnBy k = true ↔
    (l ≠ .primary ∧ k = .mark .leftParen) ∨ ∃ op ∈ l.operators, k = .mark op.mark := by
  simp [Level.carriedOnBy]

variable {op : BinaryOp}

theorem mem_operators_chain :
    op ∈ (Level.chain c).operators ↔ op ∈ c.operand.operators ∨ op ∈ c.operators := by
  cases c <;> cases op <;> decide

theorem carriedOnBy_chain (c : Chain) (k : TokenKind) :
    (Level.chain c).carriedOnBy k = true ↔
      c.operand.carriedOnBy k = true ∨ ∃ op ∈ c.operators, k = .mark op.mark := by
  have hprimary : c.operand ≠ .primary := by cases c <;> decide
  simp only [carriedOnBy_iff, mem_operators_chain, or_and_right, exists_or, or_assoc, ne_eq,
    hprimary, reduceCtorEq]

theorem carriedOnBy_comparison (k : TokenKind) :
    Level.comparison.carriedOnBy k = true ↔ (Level.chain .sum).carriedOnBy k = true ∨
      ∃ op ∈ BinaryOp.comparisons, k = .mark op.mark := by
  have hmem : ∀ op, op ∈ Level.comparison.operators ↔
      op ∈ (Level.chain .sum).operators ∨ op ∈ BinaryOp.comparisons := by
    intro op
    cases op <;> decide
  simp only [carriedOnBy_iff, hmem, or_and_right, exists_or, or_assoc, ne_eq, reduceCtorEq]

theorem carriedOnBy_assignment (k : TokenKind) :
    Level.assignment.carriedOnBy k = true ↔
      (Level.chain .disjunction).carriedOnBy k = true ∨ k = .mark .leftArrow := by
  have hmem : ∀ op, op ∈ Level.assignment.operators ↔
      op ∈ (Level.chain .disjunction).operators ∨ op = .assign := by
    intro op
    cases op <;> decide
  simp only [carriedOnBy_iff, hmem, or_and_right, exists_or, or_assoc, ne_eq, reduceCtorEq,
    exists_eq_left, BinaryOp.mark]

theorem assignment_carriedOnBy (k : TokenKind) :
    Level.assignment.carriedOnBy k = k.carriesOn := rfl

theorem primary_not_carriedOnBy (k : TokenKind) : Level.primary.carriedOnBy k = false := rfl

theorem carriedOnBy_call (k : TokenKind) :
    Level.call.carriedOnBy k = true ↔ k = .mark .leftParen := by
  simp [Level.carriedOnBy, Level.operators]

/-- An operator of a chain does not carry on its operands. -/
theorem operand_not_carriedOnBy (h : op ∈ c.operators) :
    c.operand.carriedOnBy (.mark op.mark) = false := by
  cases c <;> simp only [Chain.operators, List.mem_cons, List.not_mem_nil, or_false] at h <;>
    rcases h with rfl | rfl <;> rfl

theorem sum_not_carriedOnBy (h : op ∈ BinaryOp.comparisons) :
    (Level.chain .sum).carriedOnBy (.mark op.mark) = false := by
  simp only [BinaryOp.comparisons, List.mem_cons, List.not_mem_nil, or_false] at h
  rcases h with rfl | rfl | rfl | rfl | rfl | rfl <;> rfl

/-- A phrase ends in front of a token of the given kind. The parts that repeat are looked at
inside the form that they are part of. -/
@[simp] def Nonterminal.Stops : Nonterminal → TokenKind → Prop
  | .level l, k => l.carriedOnBy k = false
  | .operands c, k => (Level.chain c).carriedOnBy k = false
  | .calls, k => k ≠ .mark .leftParen
  | .arguments, k | .moreArguments, k => k = .mark .rightParen
  | .components, k => k = .mark .rightBrace
  | .definitions, k => k = .keyword .kwIn
  | .parameters, k | .moreParameters, k => k = .keyword .kwTo

namespace Phrase

variable {nt : Nonterminal} {rest : List Token}

/-- The phrase ends in front of the given tokens, and its open-ended forms are maximal there. -/
def Fits (d : Phrase nt) (rest : List Token) : Prop :=
  d.Maximal (nextKind rest) ∧ nt.Stops (nextKind rest)

@[simp] theorem nextKind_cons (t : Token) (ts : List Token) : nextKind (t :: ts) = t.kind := rfl

theorem nextKind_tokens (d : Phrase nt) (rest : List Token) :
    nextKind (d.tokens ++ rest) = d.firstKind (nextKind rest) := by
  rw [firstKind]
  cases d.tokens <;> rfl

/-- A phrase of two parts fits if its second part does, and its first part in front of that. -/
theorem fits_of_parts {nt1 nt2 : Nonterminal} {d : Phrase nt} {e : Phrase nt1}
    {more : Phrase nt2}
    (hparts : ∀ k, d.Maximal k ↔ e.Maximal (more.firstKind k) ∧ more.Maximal k)
    (hstops : ∀ k, nt.Stops k ↔ nt2.Stops k)
    (hfirst : more.Fits rest → nt1.Stops (nextKind (more.tokens ++ rest))) :
    d.Fits rest ↔ e.Fits (more.tokens ++ rest) ∧ more.Fits rest := by
  constructor
  · rintro ⟨hd, hstop⟩
    obtain ⟨he, hmore⟩ := (hparts _).mp hd
    have hfits : more.Fits rest := ⟨hmore, (hstops _).mp hstop⟩
    refine ⟨⟨?_, hfirst hfits⟩, hfits⟩
    rw [nextKind_tokens]
    exact he
  · rintro ⟨⟨he, -⟩, hmore, hstop⟩
    rw [nextKind_tokens] at he
    exact ⟨(hparts _).mpr ⟨he, hmore⟩, (hstops _).mpr hstop⟩

/-! ## Fitting, production by production -/

section

variable {c : Chain} {s s' s1 s2 : Span} {op : BinaryOp} {x : Ident}

theorem fits_unassigned {e : Phrase (.level (.chain .disjunction))} :
    (unassigned e).Fits rest ↔ e.Fits rest ∧ nextKind rest ≠ .mark .leftArrow := by
  simp only [Fits, Maximal, Nonterminal.Stops, ← Bool.not_eq_true, carriedOnBy_assignment, not_or,
    and_assoc, ne_eq]

theorem fits_assign {l : Phrase (.level (.chain .disjunction))}
    {r : Phrase (.level .assignment)} :
    (assign l s r).Fits rest ↔
      l.Fits (.ofMark .leftArrow s :: (r.tokens ++ rest)) ∧ r.Fits rest := by
  have hstop : (Level.chain .disjunction).carriedOnBy (.mark .leftArrow) = false := rfl
  simp only [Fits, Maximal, Nonterminal.Stops, nextKind_cons, Token.ofMark, hstop, and_true,
    and_assoc]

theorem fits_noOperand :
    (noOperand : Phrase (.operands c)).Fits rest ↔
      (Level.chain c).carriedOnBy (nextKind rest) = false :=
  and_iff_right trivial

/-- The operands of a chain end in front of the next operator. -/
theorem Fits.operand_stops {more : Phrase (.operands c)} (h : more.Fits rest) :
    c.operand.carriedOnBy (nextKind (more.tokens ++ rest)) = false := by
  cases more with
  | noOperand =>
    have hstop := fits_noOperand.mp h
    rw [← Bool.not_eq_true, carriedOnBy_chain, not_or] at hstop
    rw [← Bool.not_eq_true]
    exact hstop.1
  | operand s op hop e more => exact operand_not_carriedOnBy hop

theorem fits_chain {first : Phrase (.level c.operand)} {more : Phrase (.operands c)} :
    (chain first more).Fits rest ↔ first.Fits (more.tokens ++ rest) ∧ more.Fits rest :=
  fits_of_parts (fun _ => by rw [Maximal]) (fun _ => Iff.rfl) Fits.operand_stops

theorem fits_operand {hop : op ∈ c.operators} {e : Phrase (.level c.operand)}
    {more : Phrase (.operands c)} :
    (operand s op hop e more).Fits rest ↔ e.Fits (more.tokens ++ rest) ∧ more.Fits rest :=
  fits_of_parts (fun _ => by rw [Maximal]) (fun _ => Iff.rfl) Fits.operand_stops

theorem fits_uncompared {e : Phrase (.level (.chain .sum))} :
    (uncompared e).Fits rest ↔
      e.Fits rest ∧ ∀ op ∈ BinaryOp.comparisons, nextKind rest ≠ .mark op.mark := by
  simp only [Fits, Maximal, Nonterminal.Stops, ← Bool.not_eq_true, carriedOnBy_comparison, not_or,
    not_exists, not_and, ne_eq, and_assoc]

theorem fits_compare {hop : op ∈ BinaryOp.comparisons} {l r : Phrase (.level (.chain .sum))} :
    (compare l s op hop r).Fits rest ↔
      l.Fits (.ofMark op.mark s :: (r.tokens ++ rest)) ∧ r.Fits rest ∧
        ∀ op ∈ BinaryOp.comparisons, nextKind rest ≠ .mark op.mark := by
  have hstop := sum_not_carriedOnBy hop
  simp only [Fits, Maximal, Nonterminal.Stops, nextKind_cons, Token.ofMark, hstop, and_true]
  simp only [← Bool.not_eq_true, carriedOnBy_comparison, not_or, not_exists, not_and, ne_eq,
    and_assoc]

theorem fits_call {f : Phrase (.level .primary)} {more : Phrase .calls} :
    (call f more).Fits rest ↔ f.Fits (more.tokens ++ rest) ∧ more.Fits rest := by
  refine fits_of_parts (fun _ => by rw [Maximal]) (fun k => ?_) (fun _ => rfl)
  simp only [Nonterminal.Stops, ← Bool.not_eq_true, carriedOnBy_call, ne_eq]

theorem fits_noCall : noCall.Fits rest ↔ nextKind rest ≠ .mark .leftParen :=
  and_iff_right trivial

theorem fits_callOn {args : Phrase .arguments} {more : Phrase .calls} :
    (callOn s args s' more).Fits rest ↔
      args.Fits (.ofMark .rightParen s' :: (more.tokens ++ rest)) ∧ more.Fits rest := by
  simp only [Fits, Maximal, Nonterminal.Stops, nextKind_cons, Token.ofMark, and_true, and_assoc]

theorem fits_noArgument : noArgument.Fits rest ↔ nextKind rest = .mark .rightParen :=
  and_iff_right trivial

theorem fits_lastArgument : lastArgument.Fits rest ↔ nextKind rest = .mark .rightParen :=
  and_iff_right trivial

variable {e : Phrase (.level .assignment)} {more : Phrase .moreArguments}

theorem Fits.argument_stops (h : more.Fits rest) :
    Level.assignment.carriedOnBy (nextKind (more.tokens ++ rest)) = false := by
  cases more with
  | lastArgument =>
    rw [tokens, List.nil_append, fits_lastArgument.mp h]
    rfl
  | nextArgument s e more => rfl

theorem fits_nextArgument :
    (nextArgument s e more).Fits rest ↔ e.Fits (more.tokens ++ rest) ∧ more.Fits rest :=
  fits_of_parts (fun _ => by rw [Maximal]) (fun _ => Iff.rfl) Fits.argument_stops

theorem fits_argument :
    (argument e more).Fits rest ↔ e.Fits (more.tokens ++ rest) ∧ more.Fits rest :=
  fits_of_parts (fun _ => by rw [Maximal]) (fun _ => Iff.rfl) Fits.argument_stops

theorem fits_parens : (parens s e s').Fits rest ↔ e.Fits (.ofMark .rightParen s' :: rest) := by
  have hstop : Level.assignment.carriedOnBy (.mark .rightParen) = false := rfl
  simp only [Fits, Maximal, Nonterminal.Stops, nextKind_cons, Token.ofMark, hstop,
    primary_not_carriedOnBy]

theorem fits_lastComponent : lastComponent.Fits rest ↔ nextKind rest = .mark .rightBrace :=
  and_iff_right trivial

theorem fits_lastSemicolon :
    (lastSemicolon s).Fits rest ↔ nextKind rest = .mark .rightBrace :=
  and_iff_right trivial

theorem Fits.component_stops {more : Phrase .components} (h : more.Fits rest) :
    Level.assignment.carriedOnBy (nextKind (more.tokens ++ rest)) = false := by
  cases more with
  | lastComponent =>
    rw [tokens, List.nil_append, fits_lastComponent.mp h]
    rfl
  | lastSemicolon | nextComponent => rfl

theorem fits_nextComponent {more : Phrase .components} :
    (nextComponent s e more).Fits rest ↔ e.Fits (more.tokens ++ rest) ∧ more.Fits rest :=
  fits_of_parts (fun _ => by rw [Maximal]) (fun _ => Iff.rfl) Fits.component_stops

theorem fits_block {more : Phrase .components} :
    (block s e more s').Fits rest ↔
      e.Fits (more.tokens ++ .ofMark .rightBrace s' :: rest) ∧
        more.Fits (.ofMark .rightBrace s' :: rest) := by
  rw [← fits_nextComponent (s := .synthetic)]
  simp only [Fits, Maximal, Nonterminal.Stops, nextKind_cons, Token.ofMark,
    primary_not_carriedOnBy]

theorem fits_cond {t a b : Phrase (.level .assignment)} :
    (cond s t s1 a s2 b).Fits rest ↔
      t.Fits (.ofWord .kwThen s1 :: (a.tokens ++ .ofWord .kwElse s2 :: (b.tokens ++ rest))) ∧
        a.Fits (.ofWord .kwElse s2 :: (b.tokens ++ rest)) ∧ b.Fits rest := by
  have hthen : Level.assignment.carriedOnBy (.keyword .kwThen) = false := rfl
  have helse : Level.assignment.carriedOnBy (.keyword .kwElse) = false := rfl
  simp only [Fits, Maximal, Nonterminal.Stops, nextKind_cons, Token.ofWord, hthen, helse,
    primary_not_carriedOnBy, assignment_carriedOnBy, and_true, Bool.not_eq_true]

theorem fits_lastDefinition :
    (lastDefinition x s e s').Fits rest ↔
      e.Fits (.ofMark .semicolon s' :: rest) ∧ nextKind rest = .keyword .kwIn := by
  have hstop : Level.assignment.carriedOnBy (.mark .semicolon) = false := rfl
  simp only [Fits, Maximal, Nonterminal.Stops, nextKind_cons, Token.ofMark, hstop, and_true]

theorem fits_definition {more : Phrase .definitions} :
    (definition x s e s' more).Fits rest ↔
      e.Fits (.ofMark .semicolon s' :: (more.tokens ++ rest)) ∧ more.Fits rest := by
  have hstop : Level.assignment.carriedOnBy (.mark .semicolon) = false := rfl
  simp only [Fits, Maximal, Nonterminal.Stops, nextKind_cons, Token.ofMark, hstop, and_true,
    and_assoc]

theorem fits_letIn {kind : LetKind} {defs : Phrase .definitions} :
    (letIn s kind defs s1 body).Fits rest ↔
      defs.Fits (.ofWord .kwIn s1 :: (body.tokens ++ rest)) ∧ body.Fits rest := by
  simp only [Fits, Maximal, Nonterminal.Stops, nextKind_cons, Token.ofWord,
    primary_not_carriedOnBy, assignment_carriedOnBy, and_true, Bool.not_eq_true]

theorem fits_noParameter : noParameter.Fits rest ↔ nextKind rest = .keyword .kwTo :=
  and_iff_right trivial

theorem fits_lastParameter : lastParameter.Fits rest ↔ nextKind rest = .keyword .kwTo :=
  and_iff_right trivial

theorem moreParameters_maximal (more : Phrase .moreParameters) (k : TokenKind) :
    more.Maximal k := by
  cases more <;> trivial

theorem fits_nextParameter {more : Phrase .moreParameters} :
    (nextParameter s x more).Fits rest ↔ more.Fits rest := by
  simp only [Fits, Maximal, Nonterminal.Stops, moreParameters_maximal]

theorem fits_parameter {more : Phrase .moreParameters} :
    (parameter x more).Fits rest ↔ more.Fits rest := by
  simp only [Fits, Maximal, Nonterminal.Stops, moreParameters_maximal]

theorem fits_map {params : Phrase .parameters} :
    (map s params s1 body).Fits rest ↔
      params.Fits (.ofWord .kwTo s1 :: (body.tokens ++ rest)) ∧ body.Fits rest := by
  have hparams : params.Maximal (.keyword .kwTo) := by cases params <;> trivial
  simp only [Fits, Maximal, Nonterminal.Stops, nextKind_cons, Token.ofWord,
    primary_not_carriedOnBy, assignment_carriedOnBy, hparams, and_true, true_and, Bool.not_eq_true]

end

/-! ## What phrases start with -/

end Phrase

inductive PrimaryForm where
  | int
  | bool
  | null
  | prim
  | var
  | parens
  | block
  | cond
  | letIn
  | map

/-- The form of the primary expressions that start with a token. -/
def TokenKind.form? : TokenKind → Option PrimaryForm
  | .int _ => some .int
  | .ident _ => some .var
  | .prim _ => some .prim
  | .keyword .kwTrue | .keyword .kwFalse => some .bool
  | .keyword .kwNull => some .null
  | .keyword .kwIf => some .cond
  | .keyword .kwLet | .keyword .kwLetRec => some .letIn
  | .keyword .kwMap => some .map
  | .mark .leftParen => some .parens
  | .mark .leftBrace => some .block
  | _ => none

/-- Whether an expression can start with a token: a primary one can, or it is an operator that
stands before its operand. -/
def TokenKind.StartsExpression (k : TokenKind) : Prop :=
  k.form?.isSome = true ∨ ∃ op : UnaryOp, k = op.token

namespace Phrase

def form : Phrase (.level .primary) → PrimaryForm
  | .int _ _ => .int
  | .bool _ _ => .bool
  | .null _ => .null
  | .prim _ _ => .prim
  | .var _ => .var
  | .parens _ _ _ => .parens
  | .block _ _ _ _ => .block
  | .cond _ _ _ _ _ _ => .cond
  | .letIn _ _ _ _ _ => .letIn
  | .map _ _ _ _ => .map

variable {nt : Nonterminal} {rest : List Token}

/-- The first token of a primary expression tells its form. -/
theorem form?_nextKind (d : Phrase (.level .primary)) (rest : List Token) :
    (nextKind (d.tokens ++ rest)).form? = some d.form := by
  cases d with
  | bool s b => cases b <;> rfl
  | letIn s kind defs s1 body => cases kind <;> rfl
  | _ => rfl

theorem form?_token (op : UnaryOp) : op.token.form? = none := by
  cases op <;> rfl

/-- Every expression starts with a token that an expression can start with. -/
theorem startsExpression (d : Phrase (.level l)) (rest : List Token) :
    (nextKind (d.tokens ++ rest)).StartsExpression := by
  generalize hnt : Nonterminal.level l = nt at d
  induction d generalizing l rest with
  | apply s op e => exact .inr ⟨op, rfl⟩
  | unassigned e ih => exact ih rest rfl
  | assign l s r ihl =>
    rw [tokens, List.append_assoc]
    exact ihl _ rfl
  | chain first more ih =>
    rw [tokens, List.append_assoc]
    exact ih _ rfl
  | uncompared e ih => exact ih rest rfl
  | compare l s op hop r ihl =>
    rw [tokens, List.append_assoc]
    exact ihl _ rfl
  | unapplied e ih => exact ih rest rfl
  | call f more =>
    rw [tokens, List.append_assoc]
    exact .inl (by rw [form?_nextKind]; rfl)
  | int | bool | null | prim | var | parens | block | cond | letIn | map =>
    exact .inl (by rw [form?_nextKind]; rfl)
  | _ => cases hnt

theorem not_startsExpression {m : Mark}
    (hm : m ∉ [.leftParen, .leftBrace, .minus, .tilde, .bang]) :
    ¬ (TokenKind.mark m).StartsExpression := by
  rintro (h | ⟨op, h⟩)
  · cases m with
    | leftParen | leftBrace => exact hm (by decide)
    | _ => cases h
  · cases op with
    | ref => cases h
    | _ =>
      cases h
      exact hm (by decide)

end Phrase

end Mapling
