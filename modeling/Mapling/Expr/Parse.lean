import Mapling.Expr
import Mapling.Token.Scan

/-! # Reading tokens as an expression

From the loosest to the tightest: assignment, which groups to the right; disjunction;
conjunction; comparison, of which there is at most one; sums; products; prefix operators;
calls. `if`, `let`, `letrec` and `map` may stand wherever an operand may and reach as far to
the right as possible.

What does not fit is reported at the next token, and there is no result then. -/

namespace Mapling

/-- What can be wrong with a sequence of tokens, at the token that does not fit. -/
inductive ParseFault where
  | expectedEnd (got : TokenKind)
  | expected (wanted got : TokenKind)
  | reservedName (got : TokenKind)
  | expectedIdentifier (got : TokenKind)
  | expectedExpression (got : TokenKind)
  | chainedComparison
deriving DecidableEq, Repr

namespace ParseFault

def code : ParseFault → Code
  | .chainedComparison => .chainedComparison
  | _ => .unexpectedToken

def message : ParseFault → String
  | .expectedEnd got => "expected end of program, got '" ++ got.text ++ "'"
  | .expected wanted got => "expected '" ++ wanted.text ++ "', got '" ++ got.text ++ "'"
  | .reservedName got => "'" ++ got.text ++ "' is reserved and cannot be used as a variable name"
  | .expectedIdentifier got => "expected identifier, got '" ++ got.text ++ "'"
  | .expectedExpression got => "expected expression, got '" ++ got.text ++ "'"
  | .chainedComparison => "comparison operators cannot be chained"

def suggestion : ParseFault → Option String
  | .reservedName _ => some "choose a different name"
  | .chainedComparison => some "combine comparisons with '&': a < b & b < c"
  | _ => none

def diagnostic (f : ParseFault) (span : Span) : Diagnostic :=
  .ofCode f.code f.message span f.suggestion

end ParseFault

/-- The tokens still to be read, and what has been reported. When the tokens are used up, the last
one is seen over and over. -/
structure ParseState where
  rest : List Token
  last : Token
  /-- The span of the token read last. -/
  previous : Span
  faults : List (ParseFault × Span)
deriving Repr

namespace ParseState

def ofTokens (ts : List Token) : ParseState :=
  { rest := ts
    last := ts.getLast?.getD ⟨.eof, .point ⟨1, 1⟩⟩
    previous := .point ⟨1, 1⟩
    faults := [] }

def current (c : ParseState) : Token := c.rest.head?.getD c.last

def next (c : ParseState) : ParseState :=
  { c with rest := c.rest.tail, previous := c.current.span }

/-- Report what is wrong at the next token. -/
def reportAt (c : ParseState) (f : TokenKind → ParseFault) : ParseState :=
  { c with faults := c.faults ++ [(f c.current.kind, c.current.span)] }

end ParseState

/-- Reading may come to no result; what was read and reported until then is kept. -/
abbrev Parser := OptionT (StateM ParseState)

namespace Parser

/-- The result from a state on, if there is one, and the state then. -/
def outcome {α : Type} (p : Parser α) (c : ParseState) : Option α × ParseState :=
  (p.run.run c).run

/-- The bound on the nesting is used up. -/
def tooDeep {α : Type} : Parser α := failure

def peek : Parser TokenKind := do return (← get).current.kind

def advance : Parser Token := do
  let t := (← get).current
  modify ParseState.next
  return t

/-- Report the next token, and give no result. -/
def fail {α : Type} (f : TokenKind → ParseFault) : Parser α := do
  modify (fun c => c.reportAt f)
  failure

/-- Read the next token if it is of the given kind, and say whether it is. -/
def eat (kind : TokenKind) : Parser Bool := do
  if (← peek) = kind then
    let _ ← advance
    return true
  else return false

/-- Read the next token, which has to be of the given kind. -/
def expect (kind : TokenKind) : Parser Unit := do
  if ← eat kind then return () else fail (.expected kind)

def expectMark (m : Mark) : Parser Unit := expect (.mark m)

def expectWord (k : Keyword) : Parser Unit := expect (.keyword k)

def previousSpan : Parser Span := do return (← get).previous

def identifier : Parser Ident := do
  match ← peek with
  | .ident name => return ⟨name, (← advance).span⟩
  | kind => if kind.isReserved then fail .reservedName else fail .expectedIdentifier

/-! ## Operators -/

def assignOp : TokenKind → Option BinaryOp
  | .mark .leftArrow => some .assign
  | _ => none

def orOp : TokenKind → Option BinaryOp
  | .mark .pipe => some .or
  | _ => none

def andOp : TokenKind → Option BinaryOp
  | .mark .amp => some .and
  | _ => none

def comparisonOp : TokenKind → Option BinaryOp
  | .mark .equal => some .eq
  | .mark .bangEqual => some .ne
  | .mark .less => some .lt
  | .mark .lessEqual => some .le
  | .mark .greater => some .gt
  | .mark .greaterEqual => some .ge
  | _ => none

def sumOp : TokenKind → Option BinaryOp
  | .mark .plus => some .add
  | .mark .minus => some .sub
  | _ => none

def productOp : TokenKind → Option BinaryOp
  | .mark .star => some .mul
  | .mark .slash => some .div
  | _ => none

def unaryOp : TokenKind → Option UnaryOp
  | .mark .minus => some .neg
  | .mark .tilde => some .not
  | .mark .bang => some .deref
  | .keyword .kwRef => some .ref
  | _ => none

/-! ## Sequences

Each of these reads one item after another. The number bounds how many there are. -/

/-- Further operands of a chain that groups to the left; `left` is what was read so far. -/
def chainFrom (op : TokenKind → Option BinaryOp) (operand : Parser NamedExpr) :
    Nat → NamedExpr → Parser NamedExpr
  | 0, _ => tooDeep
  | n + 1, left => do
    match op (← peek) with
    | some o =>
      let _ ← advance
      let right ← operand
      chainFrom op operand n (Expr.mkBinary o left right)
    | none => return left

/-- Operands with operators between them, grouped to the left. -/
def chain (op : TokenKind → Option BinaryOp) (operand : Parser NamedExpr) (n : Nat) :
    Parser NamedExpr := do
  chainFrom op operand n (← operand)

/-- Expressions with commas between them, and the closing parenthesis. -/
def arguments (expr : Parser NamedExpr) : Nat → Parser (List NamedExpr)
  | 0 => tooDeep
  | n + 1 => do
    let e ← expr
    if ← eat (.mark .comma) then return e :: (← arguments expr n)
    else
      expectMark .rightParen
      return [e]

/-- The rest of a block after an expression. The last semicolon may be left out. -/
def blockRest (expr : Parser NamedExpr) : Nat → Parser (List NamedExpr)
  | 0 => tooDeep
  | n + 1 => do
    if ← eat (.mark .semicolon) then
      if (← peek) = .mark .rightBrace then return []
      else
        let e ← expr
        return e :: (← blockRest expr n)
    else return []

/-- Whether a definition can start with the token. -/
def startsDefinition : TokenKind → Bool
  | .ident _ => true
  | _ => false

/-- Definitions `name := value;`, at least one. -/
def definitions (expr : Parser NamedExpr) : Nat → Parser (List (Ident × NamedExpr))
  | 0 => tooDeep
  | n + 1 => do
    let x ← identifier
    expectMark .colonEqual
    let e ← expr
    expectMark .semicolon
    if startsDefinition (← peek) then return (x, e) :: (← definitions expr n)
    else return [(x, e)]

/-- Names with commas between them, at least one. -/
def parameters : Nat → Parser (List Ident)
  | 0 => tooDeep
  | n + 1 => do
    let x ← identifier
    if ← eat (.mark .comma) then return x :: (← parameters n)
    else return [x]

/-! ## Forms that start with a word of their own

The first token of the form, with span `start`, has been read. -/

def blockForm (expr : Parser NamedExpr) (n : Nat) (start : Span) : Parser NamedExpr := do
  let e ← expr
  let es ← blockRest expr n
  expectMark .rightBrace
  return .block (start.merge (← previousSpan)) (e :: es)

def condForm (expr : Parser NamedExpr) (start : Span) : Parser NamedExpr := do
  let t ← expr
  expectWord .kwThen
  let a ← expr
  expectWord .kwElse
  let b ← expr
  return .cond (start.merge b.span) t a b

def letForm (expr : Parser NamedExpr) (n : Nat) (kind : LetKind) (start : Span) :
    Parser NamedExpr := do
  let defs ← definitions expr n
  expectWord .kwIn
  let body ← expr
  return .letIn (start.merge body.span) kind defs () body

def mapForm (expr : Parser NamedExpr) (n : Nat) (start : Span) : Parser NamedExpr := do
  let params ← if (← peek) = .keyword .kwTo then pure [] else parameters n
  expectWord .kwTo
  let body ← expr
  return .map (start.merge body.span) params () body

/-! ## Expressions by level -/

/-- A literal, a name, an expression in parentheses or one of the forms. -/
def primary (expr : Parser NamedExpr) (n : Nat) : Parser NamedExpr := do
  match ← peek with
  | .int k => return .int (← advance).span k
  | .prim p => return .prim (← advance).span p
  | .ident x =>
    let s := (← advance).span
    return .var s ⟨x, s⟩
  | .keyword .kwTrue => return .bool (← advance).span true
  | .keyword .kwFalse => return .bool (← advance).span false
  | .keyword .kwNull => return .null (← advance).span
  | .keyword .kwIf => condForm expr (← advance).span
  | .keyword .kwLet => letForm expr n .plain (← advance).span
  | .keyword .kwLetRec => letForm expr n .recursive (← advance).span
  | .keyword .kwMap => mapForm expr n (← advance).span
  | .mark .leftBrace => blockForm expr n (← advance).span
  | .mark .leftParen =>
    let _ ← advance
    let e ← expr
    expectMark .rightParen
    return e
  | _ => fail .expectedExpression

/-- Calls of what was read so far, one argument list after another. -/
def callsFrom (expr : Parser NamedExpr) (bound : Nat) : Nat → NamedExpr → Parser NamedExpr
  | 0, _ => tooDeep
  | n + 1, f => do
    if ← eat (.mark .leftParen) then
      let args ← if ← eat (.mark .rightParen) then pure [] else arguments expr bound
      callsFrom expr bound n (.app (f.span.merge (← previousSpan)) f args)
    else return f

def call (expr : Parser NamedExpr) (n : Nat) : Parser NamedExpr := do
  callsFrom expr n n (← primary expr n)

/-- Prefix operators in front of a call. -/
def unary (operand : Parser NamedExpr) : Nat → Parser NamedExpr
  | 0 => tooDeep
  | n + 1 => do
    match unaryOp (← peek) with
    | some op =>
      let start := (← advance).span
      let e ← unary operand n
      return .unary (start.merge e.span) op e
    | none => operand

def product (expr : Parser NamedExpr) (n : Nat) : Parser NamedExpr :=
  chain productOp (unary (call expr n) n) n

def sum (expr : Parser NamedExpr) (n : Nat) : Parser NamedExpr := chain sumOp (product expr n) n

/-- One sum, or two with a comparison between them; a second comparison is an error. -/
def comparison (expr : Parser NamedExpr) (n : Nat) : Parser NamedExpr := do
  let left ← sum expr n
  match comparisonOp (← peek) with
  | none => return left
  | some op =>
    let _ ← advance
    let right ← sum expr n
    if (comparisonOp (← peek)).isSome then fail (fun _ => .chainedComparison)
    else return Expr.mkBinary op left right

def conjunction (expr : Parser NamedExpr) (n : Nat) : Parser NamedExpr :=
  chain andOp (comparison expr n) n

def disjunction (expr : Parser NamedExpr) (n : Nat) : Parser NamedExpr :=
  chain orOp (conjunction expr n) n

/-- An assignment; its right side is any expression, so assignments group to the right. -/
def assignment (expr : Parser NamedExpr) (n : Nat) : Parser NamedExpr := do
  let left ← disjunction expr n
  match assignOp (← peek) with
  | some op =>
    let _ ← advance
    let right ← expr
    return Expr.mkBinary op left right
  | none => return left

/-- An expression. The number bounds how deep expressions are nested in each other and how many
items stand in a row. -/
def expression : Nat → Parser NamedExpr
  | 0 => tooDeep
  | n + 1 => assignment (expression n) n

/-- Read an expression and see that nothing follows it. Every nested expression and every item in a
row takes a token of its own, so the number of tokens bounds both. -/
def program (ts : List Token) : Option NamedExpr × ParseState :=
  let (e, c) := (expression (ts.length + 2)).outcome (.ofTokens ts)
  (e, if e.isSome ∧ c.current.kind ≠ .eof then c.reportAt .expectedEnd else c)

end Parser

/-- The program that was read, if nothing was wrong, and what was. -/
structure ParseResult where
  program : Option NamedExpr
  faults : List (ParseFault × Span)

namespace ParseResult

/-- What is read from a list of tokens. -/
def ofTokens (ts : List Token) : ParseResult :=
  let (e, c) := Parser.program ts
  ⟨if c.faults.isEmpty then e else none, c.faults⟩

/-- The report of what was wrong with the tokens of `s`. -/
def report (r : ParseResult) (s : Source) : Report :=
  .ofList (r.faults.map (fun f => (f.1.diagnostic f.2).withSource s))

end ParseResult

/-- Read a list of tokens: a program, or what was wrong. -/
def parseTokens (ts : List Token) : Except ParseResult NamedExpr :=
  let r := ParseResult.ofTokens ts
  match r.program with
  | some e => if r.faults.isEmpty then .ok e else .error r
  | none => .error r

/-- Read a source text: its tokens if the text has no fault, then the expression they make. -/
def parseSource (s : Source) : Except Report NamedExpr :=
  let scan := Scan.ofSource s
  let report := scan.report s
  if report.hasErrors then .error report
  else match parseTokens scan.tokens with
    | .ok e => .ok e
    | .error r => .error (r.report s)

end Mapling
