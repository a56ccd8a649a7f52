import Mapling.Operator
import Mapling.Span

/-! # Tokens

The words and marks of the language. Keywords and the names of primitives are reserved: they
are never identifiers. -/

namespace Mapling

inductive Keyword where
  | kwLet
  | kwLetRec
  | kwIn
  | kwIf
  | kwThen
  | kwElse
  | kwMap
  | kwTo
  | kwRef
  | kwTrue
  | kwFalse
  | kwNull
deriving DecidableEq, Repr, Inhabited

namespace Keyword

def text : Keyword → String
  | .kwLet => "let"
  | .kwLetRec => "letrec"
  | .kwIn => "in"
  | .kwIf => "if"
  | .kwThen => "then"
  | .kwElse => "else"
  | .kwMap => "map"
  | .kwTo => "to"
  | .kwRef => "ref"
  | .kwTrue => "true"
  | .kwFalse => "false"
  | .kwNull => "null"

def all : List Keyword :=
  [.kwLet, .kwLetRec, .kwIn, .kwIf, .kwThen, .kwElse, .kwMap, .kwTo, .kwRef, .kwTrue, .kwFalse,
    .kwNull]

def ofText? (s : String) : Option Keyword := all.find? (fun k => k.text == s)

end Keyword

/-- Operator signs and punctuation. -/
inductive Mark where
  | plus
  | minus
  | star
  | slash
  | equal
  | bangEqual
  | bang
  | tilde
  | less
  | lessEqual
  | greater
  | greaterEqual
  | amp
  | pipe
  | leftArrow
  | colonEqual
  | leftParen
  | rightParen
  | leftBrace
  | rightBrace
  | comma
  | semicolon
deriving DecidableEq, Repr, Inhabited

def Mark.text : Mark → String
  | .plus => "+"
  | .minus => "-"
  | .star => "*"
  | .slash => "/"
  | .equal => "="
  | .bangEqual => "!="
  | .bang => "!"
  | .tilde => "~"
  | .less => "<"
  | .lessEqual => "<="
  | .greater => ">"
  | .greaterEqual => ">="
  | .amp => "&"
  | .pipe => "|"
  | .leftArrow => "<-"
  | .colonEqual => ":="
  | .leftParen => "("
  | .rightParen => ")"
  | .leftBrace => "\x7b"
  | .rightBrace => "\x7d"
  | .comma => ","
  | .semicolon => ";"

inductive TokenKind where
  | int (n : Int)
  | ident (name : String)
  | prim (p : Prim)
  | keyword (k : Keyword)
  | mark (m : Mark)
  /-- The end of the text. -/
  | eof
deriving DecidableEq, Repr, Inhabited

namespace TokenKind

def text : TokenKind → String
  | .int n => toString n
  | .ident x => x
  | .prim p => p.name
  | .keyword k => k.text
  | .mark m => m.text
  | .eof => "end of file"

def reserved? (s : String) : Option TokenKind :=
  match Keyword.ofText? s with
  | some k => some (.keyword k)
  | none => (Prim.ofName? s).map .prim

def isReserved : TokenKind → Bool
  | .keyword _ | .prim _ => true
  | _ => false

/-- The token a word stands for: a reserved word, or else an identifier. -/
def ofWord (s : String) : TokenKind := (reserved? s).getD (.ident s)

end TokenKind

/-- A token and where it stands. -/
structure Token where
  kind : TokenKind
  span : Span
deriving DecidableEq, Repr, Inhabited

end Mapling
