import Mapling.Operator
import Mapling.Variable

/-! # Expressions

The syntax tree, over a form of variable `V` and a layout `L` that every binding form carries.
The parser produces named expressions, whose binding forms carry nothing; scope resolution
produces addressed ones, whose binding forms carry the number of slots of their frame. Every
node has a span. -/

namespace Mapling

/-- Whether the definitions of a `let` see each other. -/
inductive LetKind where
  | plain
  | recursive
deriving DecidableEq, Repr, Inhabited

def LetKind.keyword : LetKind → String
  | .plain => "let"
  | .recursive => "letrec"

inductive Expr (V L : Type) where
  | int (span : Span) (n : Int)
  | bool (span : Span) (b : Bool)
  /-- The empty list. -/
  | null (span : Span)
  | var (span : Span) (x : V)
  | prim (span : Span) (p : Prim)
  | unary (span : Span) (op : UnaryOp) (operand : Expr V L)
  | binary (span : Span) (op : BinaryOp) (left right : Expr V L)
  | app (span : Span) (func : Expr V L) (args : List (Expr V L))
  | map (span : Span) (params : List Ident) (layout : L) (body : Expr V L)
  | cond (span : Span) (test thenBranch elseBranch : Expr V L)
  | letIn (span : Span) (kind : LetKind) (defs : List (Ident × Expr V L)) (layout : L)
      (body : Expr V L)
  | block (span : Span) (exprs : List (Expr V L))
deriving Inhabited

/-- The frame of an addressed binding form: how many slots it has. -/
structure Layout where
  slots : Nat
deriving DecidableEq, Repr, Inhabited

/-- An expression whose variables are names. -/
abbrev NamedExpr := Expr Ident Unit

/-- An expression whose variables are lexical addresses. -/
abbrev AddressedExpr := Expr Address Layout

namespace Expr

variable {V L : Type}

def span : Expr V L → Span
  | .int s _ | .bool s _ | .null s | .var s _ | .prim s _ => s
  | .unary s _ _ | .binary s _ _ _ | .app s _ _ | .map s _ _ _ => s
  | .cond s _ _ _ | .letIn s _ _ _ _ | .block s _ => s

/-- Whether the expression is a primitive by name, so that applying it calls the primitive. -/
def isPrim : Expr V L → Bool
  | .prim _ _ => true
  | _ => false

/-- Whether the expression stands for itself wherever it is written: literals, variables,
primitives and functions. -/
def isAtomic : Expr V L → Bool
  | .int _ _ | .bool _ _ | .null _ | .var _ _ | .prim _ _ | .map _ _ _ _ => true
  | _ => false

/-- Whether binding the expression evaluates it at once under every policy. -/
def isImmediate : Expr V L → Bool
  | .int _ _ | .bool _ _ | .null _ | .prim _ _ | .map _ _ _ _ => true
  | _ => false

mutual

/-- An expression is simple when every application in it outside the bodies of functions
applies a primitive by name. -/
def isSimple : Expr V L → Bool
  | .int _ _ | .bool _ _ | .null _ | .var _ _ | .prim _ _ | .map _ _ _ _ => true
  | .unary _ _ e => e.isSimple
  | .binary _ _ l r => l.isSimple && r.isSimple
  | .app _ f args => f.isPrim && allSimple args
  | .cond _ t a b => t.isSimple && a.isSimple && b.isSimple
  | .letIn _ _ defs _ body => defsSimple defs && body.isSimple
  | .block _ es => allSimple es

def allSimple : List (Expr V L) → Bool
  | [] => true
  | e :: es => e.isSimple && allSimple es

def defsSimple : List (Ident × Expr V L) → Bool
  | [] => true
  | d :: ds => defSimple d && defsSimple ds

def defSimple : Ident × Expr V L → Bool
  | (_, e) => e.isSimple

end

def defNames (defs : List (Ident × Expr V L)) : List String := defs.map (fun d => d.1.name)

def defValues (defs : List (Ident × Expr V L)) : List (Expr V L) := defs.map Prod.snd

/-! ## Building nodes

A node made by a program stands where the part it is made around stands. -/

def mkBinary (op : BinaryOp) (l r : Expr V L) : Expr V L :=
  .binary (l.span.merge r.span) op l r

def mkApp (f : Expr V L) (args : List (Expr V L)) : Expr V L := .app f.span f args

def mkCond (t a b : Expr V L) : Expr V L := .cond t.span t a b

def mkMap (params : List Ident) (body : NamedExpr) : NamedExpr := .map body.span params () body

def mkLet (defs : List (Ident × NamedExpr)) (body : NamedExpr) : NamedExpr :=
  .letIn body.span .plain defs () body

def mkVar (x : Ident) : NamedExpr := .var Span.synthetic x

end Expr

end Mapling
