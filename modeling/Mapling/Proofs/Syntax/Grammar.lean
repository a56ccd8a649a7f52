import Mapling.Expr.Parse
import Mathlib.Tactic

/-! # The grammar

The grammar of expressions in layers, from the loosest to the tightest:

    assignment  =  disjunction [ "<-" assignment ]
    disjunction =  conjunction { "|" conjunction }
    conjunction =  comparison { "&" comparison }
    comparison  =  sum [ ( "=" | "!=" | "<" | "<=" | ">" | ">=" ) sum ]
    sum         =  product { ( "+" | "-" ) product }
    product     =  unary { ( "*" | "/" ) unary }
    unary       =  ( "-" | "~" | "!" | "ref" ) unary  |  call
    call        =  primary { "(" [ assignment { "," assignment } ] ")" }

A derivation is a `Phrase`. It stands for the tokens it is written with (`Phrase.tokens`) and for
the tree it builds (`Phrase.tree`); parentheses are in the tokens and not in the tree.

The forms `if`, `let`, `letrec` and `map` are primary and end in an expression, so that the layers
alone do not say where they end. They extend as far to the right as possible: what carries an
expression on, an operator or an argument list, never follows such a form, it belongs to the form's
last part (`Phrase.Maximal`). A reading of some tokens is a derivation that keeps to this
(`Reading`). -/

namespace Mapling

/-! ## Layers and terminals -/

inductive Chain where
  | disjunction
  | conjunction
  | sum
  | product
deriving DecidableEq, Repr

inductive Level where
  | assignment
  | chain (c : Chain)
  | comparison
  | unary
  | call
  | primary
deriving DecidableEq, Repr

namespace Chain

def operators : Chain → List BinaryOp
  | .disjunction => [.or]
  | .conjunction => [.and]
  | .sum => [.add, .sub]
  | .product => [.mul, .div]

abbrev operand : Chain → Level
  | .disjunction => .chain .conjunction
  | .conjunction => .comparison
  | .sum => .chain .product
  | .product => .unary

end Chain

namespace BinaryOp

def comparisons : List BinaryOp := [.eq, .ne, .lt, .le, .gt, .ge]

def mark : BinaryOp → Mark
  | .add => .plus
  | .sub => .minus
  | .mul => .star
  | .div => .slash
  | .eq => .equal
  | .ne => .bangEqual
  | .lt => .less
  | .le => .lessEqual
  | .gt => .greater
  | .ge => .greaterEqual
  | .and => .amp
  | .or => .pipe
  | .assign => .leftArrow

end BinaryOp

def UnaryOp.token : UnaryOp → TokenKind
  | .neg => .mark .minus
  | .not => .mark .tilde
  | .deref => .mark .bang
  | .ref => .keyword .kwRef

def LetKind.word : LetKind → Keyword
  | .plain => .kwLet
  | .recursive => .kwLetRec

namespace Token

def ofMark (m : Mark) (s : Span) : Token := ⟨.mark m, s⟩

def ofWord (k : Keyword) (s : Span) : Token := ⟨.keyword k, s⟩

def ofIdent (x : Ident) : Token := ⟨.ident x.name, x.span⟩

end Token

/-! ## Derivations -/

/-- What a phrase can be: an expression of some layer, or a part that repeats. -/
inductive Nonterminal where
  | level (l : Level)
  /-- The operators and operands of a chain after its first operand. -/
  | operands (c : Chain)
  /-- The argument lists after what is called. -/
  | calls
  | arguments
  /-- The arguments after the first one, each with its comma. -/
  | moreArguments
  /-- The components of a block after the first one. -/
  | components
  | definitions
  | parameters
  /-- The parameters after the first one, each with its comma. -/
  | moreParameters

/-- What a phrase builds. What continues an expression builds an expression out of one. -/
abbrev Nonterminal.Tree : Nonterminal → Type
  | .level _ => NamedExpr
  | .operands _ | .calls => NamedExpr → NamedExpr
  | .arguments | .moreArguments | .components => List NamedExpr
  | .definitions => List (Ident × NamedExpr)
  | .parameters | .moreParameters => List Ident

/-- The derivations of the grammar. Every sign and word has its span. -/
inductive Phrase : Nonterminal → Type where
  | unassigned (e : Phrase (.level (.chain .disjunction))) : Phrase (.level .assignment)
  | assign (l : Phrase (.level (.chain .disjunction))) (s : Span)
      (r : Phrase (.level .assignment)) : Phrase (.level .assignment)
  | chain {c : Chain} (first : Phrase (.level c.operand)) (more : Phrase (.operands c)) :
      Phrase (.level (.chain c))
  | noOperand {c : Chain} : Phrase (.operands c)
  | operand {c : Chain} (s : Span) (op : BinaryOp) (hop : op ∈ c.operators)
      (e : Phrase (.level c.operand)) (more : Phrase (.operands c)) : Phrase (.operands c)
  | uncompared (e : Phrase (.level (.chain .sum))) : Phrase (.level .comparison)
  | compare (l : Phrase (.level (.chain .sum))) (s : Span) (op : BinaryOp)
      (hop : op ∈ BinaryOp.comparisons) (r : Phrase (.level (.chain .sum))) :
      Phrase (.level .comparison)
  | unapplied (e : Phrase (.level .call)) : Phrase (.level .unary)
  | apply (s : Span) (op : UnaryOp) (e : Phrase (.level .unary)) : Phrase (.level .unary)
  | call (f : Phrase (.level .primary)) (more : Phrase .calls) : Phrase (.level .call)
  | noCall : Phrase .calls
  | callOn (s : Span) (args : Phrase .arguments) (s' : Span) (more : Phrase .calls) :
      Phrase .calls
  | noArgument : Phrase .arguments
  | argument (e : Phrase (.level .assignment)) (more : Phrase .moreArguments) :
      Phrase .arguments
  | lastArgument : Phrase .moreArguments
  | nextArgument (s : Span) (e : Phrase (.level .assignment)) (more : Phrase .moreArguments) :
      Phrase .moreArguments
  | int (s : Span) (n : Int) : Phrase (.level .primary)
  | bool (s : Span) (b : Bool) : Phrase (.level .primary)
  | null (s : Span) : Phrase (.level .primary)
  | prim (s : Span) (p : Prim) : Phrase (.level .primary)
  | var (x : Ident) : Phrase (.level .primary)
  | parens (s : Span) (e : Phrase (.level .assignment)) (s' : Span) : Phrase (.level .primary)
  | block (s : Span) (e : Phrase (.level .assignment)) (more : Phrase .components) (s' : Span) :
      Phrase (.level .primary)
  | lastComponent : Phrase .components
  /-- The last semicolon of a block separates nothing. -/
  | lastSemicolon (s : Span) : Phrase .components
  | nextComponent (s : Span) (e : Phrase (.level .assignment)) (more : Phrase .components) :
      Phrase .components
  | cond (s : Span) (t : Phrase (.level .assignment)) (s1 : Span)
      (a : Phrase (.level .assignment)) (s2 : Span) (b : Phrase (.level .assignment)) :
      Phrase (.level .primary)
  | letIn (s : Span) (kind : LetKind) (defs : Phrase .definitions) (s1 : Span)
      (body : Phrase (.level .assignment)) : Phrase (.level .primary)
  | lastDefinition (x : Ident) (s : Span) (e : Phrase (.level .assignment)) (s' : Span) :
      Phrase .definitions
  | definition (x : Ident) (s : Span) (e : Phrase (.level .assignment)) (s' : Span)
      (more : Phrase .definitions) : Phrase .definitions
  | map (s : Span) (params : Phrase .parameters) (s1 : Span)
      (body : Phrase (.level .assignment)) : Phrase (.level .primary)
  | noParameter : Phrase .parameters
  | parameter (x : Ident) (more : Phrase .moreParameters) : Phrase .parameters
  | lastParameter : Phrase .moreParameters
  | nextParameter (s : Span) (x : Ident) (more : Phrase .moreParameters) :
      Phrase .moreParameters

namespace Phrase

@[simp] def tokens : {nt : Nonterminal} → Phrase nt → List Token
  | _, .unassigned e => e.tokens
  | _, .assign l s r => l.tokens ++ .ofMark .leftArrow s :: r.tokens
  | _, .chain first more => first.tokens ++ more.tokens
  | _, .noOperand => []
  | _, .operand s op _ e more => .ofMark op.mark s :: (e.tokens ++ more.tokens)
  | _, .uncompared e => e.tokens
  | _, .compare l s op _ r => l.tokens ++ .ofMark op.mark s :: r.tokens
  | _, .unapplied e => e.tokens
  | _, .apply s op e => ⟨op.token, s⟩ :: e.tokens
  | _, .call f more => f.tokens ++ more.tokens
  | _, .noCall => []
  | _, .callOn s args s' more =>
    .ofMark .leftParen s :: (args.tokens ++ .ofMark .rightParen s' :: more.tokens)
  | _, .noArgument => []
  | _, .argument e more => e.tokens ++ more.tokens
  | _, .lastArgument => []
  | _, .nextArgument s e more => .ofMark .comma s :: (e.tokens ++ more.tokens)
  | _, .int s n => [⟨.int n, s⟩]
  | _, .bool s b => [.ofWord (if b then .kwTrue else .kwFalse) s]
  | _, .null s => [.ofWord .kwNull s]
  | _, .prim s p => [⟨.prim p, s⟩]
  | _, .var x => [.ofIdent x]
  | _, .parens s e s' => .ofMark .leftParen s :: (e.tokens ++ [.ofMark .rightParen s'])
  | _, .block s e more s' =>
    .ofMark .leftBrace s :: (e.tokens ++ (more.tokens ++ [.ofMark .rightBrace s']))
  | _, .lastComponent => []
  | _, .lastSemicolon s => [.ofMark .semicolon s]
  | _, .nextComponent s e more => .ofMark .semicolon s :: (e.tokens ++ more.tokens)
  | _, .cond s t s1 a s2 b =>
    .ofWord .kwIf s :: (t.tokens ++ .ofWord .kwThen s1 ::
      (a.tokens ++ .ofWord .kwElse s2 :: b.tokens))
  | _, .letIn s kind defs s1 body =>
    .ofWord kind.word s :: (defs.tokens ++ .ofWord .kwIn s1 :: body.tokens)
  | _, .lastDefinition x s e s' =>
    .ofIdent x :: .ofMark .colonEqual s :: (e.tokens ++ [.ofMark .semicolon s'])
  | _, .definition x s e s' more =>
    .ofIdent x :: .ofMark .colonEqual s :: (e.tokens ++ .ofMark .semicolon s' :: more.tokens)
  | _, .map s params s1 body =>
    .ofWord .kwMap s :: (params.tokens ++ .ofWord .kwTo s1 :: body.tokens)
  | _, .noParameter => []
  | _, .parameter x more => .ofIdent x :: more.tokens
  | _, .lastParameter => []
  | _, .nextParameter s x more => .ofMark .comma s :: .ofIdent x :: more.tokens

/-- The tree a phrase builds. A node spans from the first to the last token of its own. -/
@[simp] def tree : {nt : Nonterminal} → Phrase nt → nt.Tree
  | _, .unassigned e => e.tree
  | _, .assign l _ r => Expr.mkBinary .assign l.tree r.tree
  | _, .chain first more => more.tree first.tree
  | _, .noOperand => fun left => left
  | _, .operand _ op _ e more => fun left => more.tree (Expr.mkBinary op left e.tree)
  | _, .uncompared e => e.tree
  | _, .compare l _ op _ r => Expr.mkBinary op l.tree r.tree
  | _, .unapplied e => e.tree
  | _, .apply s op e => Expr.unary (s.merge (Expr.span e.tree)) op e.tree
  | _, .call f more => more.tree f.tree
  | _, .noCall => fun f => f
  | _, .callOn _ args s' more => fun f => more.tree (.app (f.span.merge s') f args.tree)
  | _, .noArgument => ([] : List NamedExpr)
  | _, .argument e more => List.cons e.tree more.tree
  | _, .lastArgument => ([] : List NamedExpr)
  | _, .nextArgument _ e more => List.cons e.tree more.tree
  | _, .int s n => Expr.int s n
  | _, .bool s b => Expr.bool s b
  | _, .null s => Expr.null s
  | _, .prim s p => Expr.prim s p
  | _, .var x => Expr.var x.span x
  | _, .parens _ e _ => e.tree
  | _, .block s e more s' => Expr.block (s.merge s') (List.cons e.tree more.tree)
  | _, .lastComponent => ([] : List NamedExpr)
  | _, .lastSemicolon _ => ([] : List NamedExpr)
  | _, .nextComponent _ e more => List.cons e.tree more.tree
  | _, .cond s t _ a _ b => Expr.cond (s.merge (Expr.span b.tree)) t.tree a.tree b.tree
  | _, .letIn s kind defs _ body =>
    Expr.letIn (s.merge (Expr.span body.tree)) kind defs.tree () body.tree
  | _, .lastDefinition x _ e _ => ([(x, e.tree)] : List (Ident × NamedExpr))
  | _, .definition x _ e _ more => List.cons (x, e.tree) more.tree
  | _, .map s params _ body =>
    Expr.map (s.merge (Expr.span body.tree)) params.tree () body.tree
  | _, .noParameter => ([] : List Ident)
  | _, .parameter x more => List.cons x more.tree
  | _, .lastParameter => ([] : List Ident)
  | _, .nextParameter _ x more => List.cons x more.tree

end Phrase

/-! ## Where the open-ended forms end -/

/-- The kind of the first of the tokens; nothing is like the end of the text. -/
def nextKind (ts : List Token) : TokenKind := (ts.head?.map Token.kind).getD .eof

/-- Whether a token carries on an expression that it follows: it is an operator between operands
or starts an argument list. -/
def TokenKind.carriesOn (k : TokenKind) : Bool :=
  k == .mark .leftParen || BinaryOp.all.any (fun op => k == .mark op.mark)

namespace Phrase

/-- The kind of the first token of a phrase in front of a token of kind `k`. -/
def firstKind {nt : Nonterminal} (d : Phrase nt) (k : TokenKind) : TokenKind :=
  (d.tokens.head?.map Token.kind).getD k

/-- In front of a token of kind `k`, the forms that end in an expression extend as far to the
right as possible: what follows such a form does not carry its last part on. -/
@[simp] def Maximal : {nt : Nonterminal} → Phrase nt → TokenKind → Prop
  | _, .unassigned e, k => e.Maximal k
  | _, .assign l _ r, k => l.Maximal (.mark .leftArrow) ∧ r.Maximal k
  | _, .chain first more, k => first.Maximal (more.firstKind k) ∧ more.Maximal k
  | _, .noOperand, _ => True
  | _, .operand _ _ _ e more, k => e.Maximal (more.firstKind k) ∧ more.Maximal k
  | _, .uncompared e, k => e.Maximal k
  | _, .compare l _ op _ r, k => l.Maximal (.mark op.mark) ∧ r.Maximal k
  | _, .unapplied e, k => e.Maximal k
  | _, .apply _ _ e, k => e.Maximal k
  | _, .call f more, k => f.Maximal (more.firstKind k) ∧ more.Maximal k
  | _, .noCall, _ => True
  | _, .callOn _ args _ more, k => args.Maximal (.mark .rightParen) ∧ more.Maximal k
  | _, .noArgument, _ => True
  | _, .argument e more, k => e.Maximal (more.firstKind k) ∧ more.Maximal k
  | _, .lastArgument, _ => True
  | _, .nextArgument _ e more, k => e.Maximal (more.firstKind k) ∧ more.Maximal k
  | _, .int _ _, _ | _, .bool _ _, _ | _, .null _, _ | _, .prim _ _, _ | _, .var _, _ => True
  | _, .parens _ e _, _ => e.Maximal (.mark .rightParen)
  | _, .block _ e more _, _ =>
    e.Maximal (more.firstKind (.mark .rightBrace)) ∧ more.Maximal (.mark .rightBrace)
  | _, .lastComponent, _ => True
  | _, .lastSemicolon _, _ => True
  | _, .nextComponent _ e more, k => e.Maximal (more.firstKind k) ∧ more.Maximal k
  | _, .cond _ t _ a _ b, k =>
    t.Maximal (.keyword .kwThen) ∧ a.Maximal (.keyword .kwElse) ∧ b.Maximal k ∧ ¬ k.carriesOn
  | _, .letIn _ _ defs _ body, k =>
    defs.Maximal (.keyword .kwIn) ∧ body.Maximal k ∧ ¬ k.carriesOn
  | _, .lastDefinition _ _ e _, _ => e.Maximal (.mark .semicolon)
  | _, .definition _ _ e _ more, k => e.Maximal (.mark .semicolon) ∧ more.Maximal k
  | _, .map _ _ _ body, k => body.Maximal k ∧ ¬ k.carriesOn
  | _, .noParameter, _ => True
  | _, .parameter _ _, _ => True
  | _, .lastParameter, _ => True
  | _, .nextParameter _ _ _, _ => True

end Phrase

/-- A reading of the tokens of a whole program. -/
structure Reading (ts : List Token) where
  phrase : Phrase (.level .assignment)
  tokens_eq : phrase.tokens = ts
  maximal : phrase.Maximal .eof

def Reading.program {ts : List Token} (r : Reading ts) : NamedExpr := r.phrase.tree

end Mapling
