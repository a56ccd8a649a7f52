/-! # Operators and primitives

The operators and the built-in functions of the language, with the symbols and names they are
written with. -/

namespace Mapling

/-- Operators written before their operand. -/
inductive UnaryOp where
  | neg
  | not
  /-- Reads a reference cell. -/
  | deref
  /-- Makes a reference cell. -/
  | ref
deriving DecidableEq, Repr, Inhabited

namespace UnaryOp

def symbol : UnaryOp → String
  | .neg => "-"
  | .not => "~"
  | .deref => "!"
  | .ref => "ref"

def all : List UnaryOp := [.neg, .not, .deref, .ref]

def ofSymbol? (s : String) : Option UnaryOp := all.find? (fun op => op.symbol == s)

end UnaryOp

/-- Operators written between their operands. -/
inductive BinaryOp where
  | add
  | sub
  | mul
  | div
  | eq
  | ne
  | lt
  | le
  | gt
  | ge
  /-- Conjunction; a false left operand decides it. -/
  | and
  /-- Disjunction; a true left operand decides it. -/
  | or
  /-- Stores a value in a reference cell. -/
  | assign
deriving DecidableEq, Repr, Inhabited

namespace BinaryOp

def symbol : BinaryOp → String
  | .add => "+"
  | .sub => "-"
  | .mul => "*"
  | .div => "/"
  | .eq => "="
  | .ne => "!="
  | .lt => "<"
  | .le => "<="
  | .gt => ">"
  | .ge => ">="
  | .and => "&"
  | .or => "|"
  | .assign => "<-"

def all : List BinaryOp :=
  [.add, .sub, .mul, .div, .eq, .ne, .lt, .le, .gt, .ge, .and, .or, .assign]

def ofSymbol? (s : String) : Option BinaryOp := all.find? (fun op => op.symbol == s)

end BinaryOp

/-- The built-in functions. -/
inductive Prim where
  | isNumber
  | isFunction
  | isList
  | isNull
  | isCons
  | isRef
  | arity
  | cons
  | first
  | rest
deriving DecidableEq, Repr, Inhabited

namespace Prim

/-- Every primitive, in the order of its index. -/
def all : List Prim :=
  [.isNumber, .isFunction, .isList, .isNull, .isCons, .isRef, .arity, .cons, .first, .rest]

def name : Prim → String
  | .isNumber => "number?"
  | .isFunction => "function?"
  | .isList => "list?"
  | .isNull => "null?"
  | .isCons => "cons?"
  | .isRef => "ref?"
  | .arity => "arity"
  | .cons => "cons"
  | .first => "first"
  | .rest => "rest"

/-- How many arguments the primitive takes: `cons` takes two, every other one. -/
def parameters : Prim → Nat
  | .cons => 2
  | _ => 1

def index : Prim → Nat
  | .isNumber => 0
  | .isFunction => 1
  | .isList => 2
  | .isNull => 3
  | .isCons => 4
  | .isRef => 5
  | .arity => 6
  | .cons => 7
  | .first => 8
  | .rest => 9

def ofName? (s : String) : Option Prim := all.find? (fun p => p.name == s)

def ofIndex? (i : Nat) : Option Prim := all[i]?

end Prim

end Mapling
