import Mapling.Proofs.Syntax.Fitting

/-! # Reading derivations

The parser gives the tree of what it reads and forgets the derivation. The functions here read the
same tokens in the same way and give the derivation itself. The parser gives its tree
(`Reader.expression_eq`), so what is to be shown of the parser is shown of the reader: that it reads
nothing but derivations, and all of them. -/

namespace Mapling

open Mapling.Parser

/-! ## Operators -/

/-- The operators that a chain of the parser looks for are those of a layer. -/
def OperatorsOf (ch : Chain) (op : TokenKind → Option BinaryOp) : Prop :=
  ∀ k o, op k = some o ↔ o ∈ ch.operators ∧ k = .mark o.mark

theorem operatorsOf_or : OperatorsOf .disjunction orOp := by
  intro k o
  constructor
  · intro h
    unfold orOp at h
    split at h <;> cases h
    exact ⟨by decide, rfl⟩
  · rintro ⟨h, rfl⟩
    obtain rfl := List.mem_singleton.mp h
    rfl

theorem operatorsOf_and : OperatorsOf .conjunction andOp := by
  intro k o
  constructor
  · intro h
    unfold andOp at h
    split at h <;> cases h
    exact ⟨by decide, rfl⟩
  · rintro ⟨h, rfl⟩
    obtain rfl := List.mem_singleton.mp h
    rfl

theorem operatorsOf_sum : OperatorsOf .sum sumOp := by
  intro k o
  constructor
  · intro h
    unfold sumOp at h
    split at h <;> cases h <;> exact ⟨by decide, rfl⟩
  · rintro ⟨h, rfl⟩
    simp only [Chain.operators, List.mem_cons, List.not_mem_nil, or_false] at h
    rcases h with rfl | rfl <;> rfl

theorem operatorsOf_product : OperatorsOf .product productOp := by
  intro k o
  constructor
  · intro h
    unfold productOp at h
    split at h <;> cases h <;> exact ⟨by decide, rfl⟩
  · rintro ⟨h, rfl⟩
    simp only [Chain.operators, List.mem_cons, List.not_mem_nil, or_false] at h
    rcases h with rfl | rfl <;> rfl

variable {k : TokenKind}

theorem comparisonOp_eq_some {o : BinaryOp} :
    comparisonOp k = some o ↔ o ∈ BinaryOp.comparisons ∧ k = .mark o.mark := by
  constructor
  · intro h
    unfold comparisonOp at h
    split at h <;> cases h <;> exact ⟨by decide, rfl⟩
  · rintro ⟨h, rfl⟩
    simp only [BinaryOp.comparisons, List.mem_cons, List.not_mem_nil, or_false] at h
    rcases h with rfl | rfl | rfl | rfl | rfl | rfl <;> rfl

theorem comparisonOp_eq_none :
    comparisonOp k = none ↔ ∀ op ∈ BinaryOp.comparisons, k ≠ .mark op.mark := by
  simp only [Option.eq_none_iff_forall_ne_some, ne_eq, comparisonOp_eq_some, not_and]

theorem unaryOp_eq_some {o : UnaryOp} : unaryOp k = some o ↔ k = o.token := by
  constructor
  · intro h
    unfold unaryOp at h
    split at h <;> cases h <;> rfl
  · rintro rfl
    cases o <;> rfl

theorem assignOp_eq_some {o : BinaryOp} :
    assignOp k = some o ↔ o = .assign ∧ k = .mark .leftArrow := by
  constructor
  · intro h
    unfold assignOp at h
    split at h <;> cases h
    exact ⟨rfl, rfl⟩
  · rintro ⟨rfl, rfl⟩
    rfl

/-! ## The reader -/

namespace Reader

/-- Read the next token, which has to be of the given kind, and give its span. -/
def take (kind : TokenKind) : Parser Span := do
  if (← peek) = kind then return (← advance).span else fail (.expected kind)

/-- The operators and operands of a chain after its first operand. -/
def operands (c : Chain) (op : TokenKind → Option BinaryOp)
    (operand : Parser (Phrase (.level c.operand))) : Nat → Parser (Phrase (.operands c))
  | 0 => tooDeep
  | n + 1 => do
    match op (← peek) with
    | some o =>
      if h : o ∈ c.operators then
        let s := (← advance).span
        let e ← operand
        return .operand s o h e (← operands c op operand n)
      else tooDeep
    | none => return .noOperand

def chain (c : Chain) (op : TokenKind → Option BinaryOp)
    (operand : Parser (Phrase (.level c.operand))) (n : Nat) :
    Parser (Phrase (.level (.chain c))) := do
  let first ← operand
  return .chain first (← operands c op operand n)

def unary (operand : Parser (Phrase (.level .call))) : Nat → Parser (Phrase (.level .unary))
  | 0 => tooDeep
  | n + 1 => do
    match unaryOp (← peek) with
    | some op =>
      let s := (← advance).span
      return .apply s op (← unary operand n)
    | none => return .unapplied (← operand)

def parameters : Nat → Parser (Ident × Phrase .moreParameters)
  | 0 => tooDeep
  | n + 1 => do
    let x ← identifier
    if (← peek) = .mark .comma then
      let s := (← advance).span
      let (y, more) ← parameters n
      return (x, .nextParameter s y more)
    else return (x, .lastParameter)

def parameterList (n : Nat) : Parser (Phrase .parameters) := do
  if (← peek) = .keyword .kwTo then return .noParameter
  else
    let (x, more) ← parameters n
    return .parameter x more

section

variable (expr : Parser (Phrase (.level .assignment)))

/-- Arguments, at least one, and the span of the closing parenthesis. -/
def arguments : Nat → Parser ((Phrase (.level .assignment) × Phrase .moreArguments) × Span)
  | 0 => tooDeep
  | n + 1 => do
    let e ← expr
    if (← peek) = .mark .comma then
      let s := (← advance).span
      let ((e', more), s') ← arguments n
      return ((e, .nextArgument s e' more), s')
    else return ((e, .lastArgument), ← take (.mark .rightParen))

def calls (bound : Nat) : Nat → Parser (Phrase .calls)
  | 0 => tooDeep
  | n + 1 => do
    if (← peek) = .mark .leftParen then
      let s := (← advance).span
      if (← peek) = .mark .rightParen then
        let s' := (← advance).span
        return .callOn s .noArgument s' (← calls bound n)
      else
        let ((e, more), s') ← arguments expr bound
        return .callOn s (.argument e more) s' (← calls bound n)
    else return .noCall

def components : Nat → Parser (Phrase .components)
  | 0 => tooDeep
  | n + 1 => do
    if (← peek) = .mark .semicolon then
      let s := (← advance).span
      if (← peek) = .mark .rightBrace then return .lastSemicolon s
      else
        let e ← expr
        return .nextComponent s e (← components n)
    else return .lastComponent

def definitions : Nat → Parser (Phrase .definitions)
  | 0 => tooDeep
  | n + 1 => do
    let x ← identifier
    let s ← take (.mark .colonEqual)
    let e ← expr
    let s' ← take (.mark .semicolon)
    if startsDefinition (← peek) then return .definition x s e s' (← definitions n)
    else return .lastDefinition x s e s'

/-! The forms of a primary expression, after their first token. -/

def block (n : Nat) (s : Span) : Parser (Phrase (.level .primary)) := do
  let e ← expr
  let more ← components expr n
  return .block s e more (← take (.mark .rightBrace))

def cond (s : Span) : Parser (Phrase (.level .primary)) := do
  let t ← expr
  let s1 ← take (.keyword .kwThen)
  let a ← expr
  let s2 ← take (.keyword .kwElse)
  return .cond s t s1 a s2 (← expr)

def letIn (n : Nat) (kind : LetKind) (s : Span) : Parser (Phrase (.level .primary)) := do
  let defs ← definitions expr n
  let s1 ← take (.keyword .kwIn)
  return .letIn s kind defs s1 (← expr)

def map (n : Nat) (s : Span) : Parser (Phrase (.level .primary)) := do
  let params ← parameterList n
  let s1 ← take (.keyword .kwTo)
  return .map s params s1 (← expr)

def parens (s : Span) : Parser (Phrase (.level .primary)) := do
  let e ← expr
  return .parens s e (← take (.mark .rightParen))

def primary (n : Nat) : Parser (Phrase (.level .primary)) := do
  match ← peek with
  | .int k => return .int (← advance).span k
  | .prim p => return .prim (← advance).span p
  | .ident x => return .var ⟨x, (← advance).span⟩
  | .keyword .kwTrue => return .bool (← advance).span true
  | .keyword .kwFalse => return .bool (← advance).span false
  | .keyword .kwNull => return .null (← advance).span
  | .keyword .kwIf => cond expr (← advance).span
  | .keyword .kwLet => letIn expr n .plain (← advance).span
  | .keyword .kwLetRec => letIn expr n .recursive (← advance).span
  | .keyword .kwMap => map expr n (← advance).span
  | .mark .leftBrace => block expr n (← advance).span
  | .mark .leftParen => parens expr (← advance).span
  | _ => fail .expectedExpression

def call (n : Nat) : Parser (Phrase (.level .call)) := do
  let f ← primary expr n
  return .call f (← calls expr n n)

def sum (n : Nat) : Parser (Phrase (.level (.chain .sum))) :=
  chain .sum sumOp (chain .product productOp (unary (call expr n) n) n) n

def comparison (n : Nat) : Parser (Phrase (.level .comparison)) := do
  let left ← sum expr n
  match comparisonOp (← peek) with
  | none => return .uncompared left
  | some op =>
    if h : op ∈ BinaryOp.comparisons then
      let s := (← advance).span
      let right ← sum expr n
      if (comparisonOp (← peek)).isSome then fail (fun _ => .chainedComparison)
      else return .compare left s op h right
    else tooDeep

def disjunction (n : Nat) : Parser (Phrase (.level (.chain .disjunction))) :=
  chain .disjunction orOp (chain .conjunction andOp (comparison expr n) n) n

def assignment (n : Nat) : Parser (Phrase (.level .assignment)) := do
  let left ← disjunction expr n
  match assignOp (← peek) with
  | some _ =>
    let s := (← advance).span
    return .assign left s (← expr)
  | none => return .unassigned left

end

def expression : Nat → Parser (Phrase (.level .assignment))
  | 0 => tooDeep
  | n + 1 => assignment (expression n) n

/-! ## The parser gives the tree of what the reader gives -/

theorem expect_eq (k : TokenKind) : expect k = (fun _ => ()) <$> take k := by
  simp only [expect, eat, take, bind_assoc, map_bind]
  refine bind_congr (fun k' => ?_)
  split
  · simp
  · simp; rfl

variable {α : Type}

@[simp] theorem map_fail {β : Type} (f : α → β) (g : TokenKind → ParseFault) :
    f <$> (fail g : Parser α) = fail g := rfl

theorem eat_bind (k : TokenKind) (f : Bool → Parser α) :
    eat k >>= f = peek >>= fun k' => if k' = k then advance >>= fun _ => f true else f false := by
  simp only [eat, bind_assoc]
  refine bind_congr (fun k' => ?_)
  split <;> simp

theorem expect_previousSpan (k : TokenKind) (f : Span → Parser α) :
    (expect k >>= fun _ => previousSpan >>= f) = take k >>= f := by
  simp only [expect, eat_bind, take, bind_assoc]
  refine bind_congr (fun k' => ?_)
  split
  · rfl
  · rfl

section
variable {expr : Parser (Phrase (.level .assignment))}

theorem chainFrom_eq {c : Chain} {op : TokenKind → Option BinaryOp} (hop : OperatorsOf c op)
    (operand : Parser (Phrase (.level c.operand))) (n : Nat) (left : NamedExpr) :
    chainFrom op (Phrase.tree <$> operand) n left =
      (fun d => d.tree left) <$> operands c op operand n := by
  induction n generalizing left with
  | zero => rfl
  | succ n ih =>
    simp only [chainFrom, operands, map_bind]
    refine bind_congr (fun k => ?_)
    cases ho : op k with
    | none => simp
    | some o =>
      simp [((hop k o).mp ho).1, ih]

theorem chain_eq {c : Chain} {op : TokenKind → Option BinaryOp} (hop : OperatorsOf c op)
    (operand : Parser (Phrase (.level c.operand))) (n : Nat) :
    Parser.chain op (Phrase.tree <$> operand) n = Phrase.tree <$> chain c op operand n := by
  simp [Parser.chain, chain, chainFrom_eq hop]

theorem unary_eq (operand : Parser (Phrase (.level .call))) (n : Nat) :
    Parser.unary (Phrase.tree <$> operand) n = Phrase.tree <$> unary operand n := by
  induction n with
  | zero => rfl
  | succ n ih =>
    simp only [Parser.unary, unary, map_bind]
    refine bind_congr (fun k => ?_)
    cases unaryOp k with
    | none => simp
    | some op => simp [ih]

theorem parameters_eq (n : Nat) :
    Parser.parameters n = (fun p => List.cons p.1 p.2.tree) <$> parameters n := by
  induction n with
  | zero => rfl
  | succ n ih =>
    simp only [Parser.parameters, parameters, eat_bind, map_bind]
    refine bind_congr (fun x => bind_congr (fun k => ?_))
    split
    · simp [ih]
    · simp

/-- The parser asks for the span of the closing parenthesis when it has read the arguments. -/
theorem arguments_eq (n : Nat) (f : List NamedExpr → Span → Parser α) :
    (do
      let es ← Parser.arguments (Phrase.tree <$> expr) n
      f es (← previousSpan)) =
    (do
      let ((e, more), s) ← arguments expr n
      f (List.cons e.tree more.tree) s) := by
  induction n generalizing f with
  | zero => rfl
  | succ n ih =>
    simp only [Parser.arguments, arguments, eat_bind, bind_assoc, bind_map_left]
    refine bind_congr (fun e => bind_congr (fun k => ?_))
    split
    · simpa using bind_congr (fun _ => ih (fun es => f (List.cons e.tree es)))
    · simpa [expectMark] using expect_previousSpan (.mark .rightParen) (f [e.tree])

theorem callsFrom_eq (m n : Nat) (f : NamedExpr) :
    callsFrom (Phrase.tree <$> expr) m n f = (fun d => d.tree f) <$> calls expr m n := by
  induction n generalizing f with
  | zero => rfl
  | succ n ih =>
    simp only [callsFrom, calls, eat_bind, map_bind]
    refine bind_congr (fun k => ?_)
    split
    · simp only [if_true, map_bind]
      refine bind_congr (fun t => bind_congr (fun k' => ?_))
      split
      · simp [ih]
        rfl
      · simp [ih, arguments_eq]
    · simp

theorem blockRest_eq (n : Nat) :
    blockRest (Phrase.tree <$> expr) n = Phrase.tree <$> components expr n := by
  induction n with
  | zero => rfl
  | succ n ih =>
    simp only [blockRest, components, eat_bind, map_bind]
    refine bind_congr (fun k => ?_)
    split
    · simp only [if_true, map_bind]
      refine bind_congr (fun t => bind_congr (fun k' => ?_))
      split
      · simp
      · simp [ih]
    · simp

theorem definitions_eq (n : Nat) :
    Parser.definitions (Phrase.tree <$> expr) n = Phrase.tree <$> definitions expr n := by
  induction n with
  | zero => rfl
  | succ n ih =>
    simp only [Parser.definitions, definitions, expectMark, expect_eq, map_bind, bind_map_left]
    refine bind_congr (fun x => bind_congr (fun s => bind_congr (fun e => bind_congr (fun s' =>
      bind_congr (fun k => ?_)))))
    split
    · simp [ih]
    · simp

theorem condForm_eq (s : Span) :
    condForm (Phrase.tree <$> expr) s = Phrase.tree <$> cond expr s := by
  simp [condForm, cond, expectWord, expect_eq]

theorem letForm_eq (n : Nat) (kind : LetKind) (s : Span) :
    letForm (Phrase.tree <$> expr) n kind s = Phrase.tree <$> letIn expr n kind s := by
  simp [letForm, letIn, expectWord, expect_eq, definitions_eq]

theorem blockForm_eq (n : Nat) (s : Span) :
    blockForm (Phrase.tree <$> expr) n s = Phrase.tree <$> block expr n s := by
  simp only [blockForm, block, expectMark, blockRest_eq, expect_previousSpan, map_bind,
    bind_map_left, map_pure, Phrase.tree]

theorem mapForm_eq (n : Nat) (s : Span) :
    mapForm (Phrase.tree <$> expr) n s = Phrase.tree <$> map expr n s := by
  simp only [mapForm, map, parameterList, expectWord, expect_eq, map_bind, bind_assoc]
  refine bind_congr (fun k => ?_)
  split
  · simp
  · simp [parameters_eq]

theorem primary_eq (n : Nat) :
    Parser.primary (Phrase.tree <$> expr) n = Phrase.tree <$> primary expr n := by
  simp only [Parser.primary, primary, map_bind]
  refine bind_congr (fun k => ?_)
  split <;> simp [condForm_eq, letForm_eq, blockForm_eq, mapForm_eq, parens, expectMark, expect_eq]

theorem call_eq (n : Nat) : Parser.call (Phrase.tree <$> expr) n = Phrase.tree <$> call expr n := by
  simp [Parser.call, call, primary_eq, callsFrom_eq]

theorem sum_eq (n : Nat) : Parser.sum (Phrase.tree <$> expr) n = Phrase.tree <$> sum expr n := by
  rw [Parser.sum, product, call_eq, unary_eq, chain_eq operatorsOf_product,
    chain_eq operatorsOf_sum, sum]

theorem comparison_eq (n : Nat) :
    Parser.comparison (Phrase.tree <$> expr) n = Phrase.tree <$> comparison expr n := by
  simp only [Parser.comparison, comparison, sum_eq, map_bind, bind_map_left]
  refine bind_congr (fun l => bind_congr (fun k => ?_))
  cases ho : comparisonOp k with
  | none => simp
  | some op =>
    simp only [(comparisonOp_eq_some.mp ho).1, dif_pos, map_bind]
    refine bind_congr (fun t => bind_congr (fun r => bind_congr (fun k' => ?_)))
    split <;> simp

theorem disjunction_eq (n : Nat) :
    Parser.disjunction (Phrase.tree <$> expr) n = Phrase.tree <$> disjunction expr n := by
  rw [Parser.disjunction, conjunction, comparison_eq, chain_eq operatorsOf_and,
    chain_eq operatorsOf_or, disjunction]

theorem assignment_eq (n : Nat) :
    Parser.assignment (Phrase.tree <$> expr) n = Phrase.tree <$> assignment expr n := by
  simp only [Parser.assignment, assignment, disjunction_eq, map_bind, bind_map_left]
  refine bind_congr (fun l => bind_congr (fun k => ?_))
  cases ho : assignOp k with
  | none => simp
  | some op =>
    obtain ⟨rfl, -⟩ := assignOp_eq_some.mp ho
    simp

end

/-- The parser gives the tree of the derivation that the reader gives. -/
theorem expression_eq (n : Nat) : Parser.expression n = Phrase.tree <$> expression n := by
  induction n with
  | zero => rfl
  | succ n ih => rw [Parser.expression, ih, assignment_eq, expression]

end Reader

end Mapling
