import Mapling.Expr

/-! # Expressions as text

Every expression has one text. Operands stand in parentheses unless they are atoms or prefix
operations, a negative integer always does, and nothing else ever does. -/

namespace Mapling

namespace Expr

variable {V L : Type}

/-- Whether the text of the expression needs no parentheses in any place. -/
def isAtom : Expr V L → Bool
  | .int _ _ | .bool _ _ | .null _ | .var _ _ | .prim _ _ | .app _ _ _ | .block _ _ => true
  | _ => false

/-- Whether the expression may stand as an operand without parentheses. -/
def isBareOperand : Expr V L → Bool
  | .unary _ _ _ => true
  | e => e.isAtom

def commaSeparated (items : List String) : String := String.intercalate ", " items

/-- The parameters of a function: the names with commas between them, and a blank after the
last one. -/
def parameterText : List Ident → String
  | [] => ""
  | ps => commaSeparated (ps.map Ident.name) ++ " "

/-- A text in parentheses, unless it may stand bare. -/
def enclosed (bare : Bool) (s : String) : String := if bare then s else "(" ++ s ++ ")"

mutual

def text [Variable V] : Expr V L → String
  | .int _ n => if n < 0 then "(" ++ toString n ++ ")" else toString n
  | .bool _ b => if b then "true" else "false"
  | .null _ => "null"
  | .var _ x => Variable.text x
  | .prim _ p => p.name
  | .unary _ op e =>
    (if op = .ref then "ref " else op.symbol) ++ enclosed e.isBareOperand e.text
  | .binary _ op l r =>
    enclosed l.isBareOperand l.text ++ " " ++ op.symbol ++ " " ++
      enclosed r.isBareOperand r.text
  | .app _ f args =>
    enclosed f.isBareOperand f.text ++ "(" ++ commaSeparated (texts args) ++ ")"
  | .map _ params _ body => "map " ++ parameterText params ++ "to " ++ body.text
  | .cond _ t a b => "if " ++ t.text ++ " then " ++ a.text ++ " else " ++ b.text
  | .letIn _ kind defs _ body => kind.keyword ++ " " ++ defsText defs ++ "in " ++ body.text
  | .block _ es => "\x7b" ++ String.intercalate "; " (texts es) ++ "\x7d"

def texts [Variable V] : List (Expr V L) → List String
  | [] => []
  | e :: es => e.text :: texts es

/-- Each definition as `name := value; `. -/
def defsText [Variable V] : List (Ident × Expr V L) → String
  | [] => ""
  | d :: ds => defText d ++ defsText ds

def defText [Variable V] : Ident × Expr V L → String
  | (x, e) => x.name ++ " := " ++ e.text ++ "; "

end

end Expr

end Mapling
