import Mapling.Span

/-! # Variables and environments

A program refers to its variables by name or by lexical address. An environment is a stack of
frames, innermost first, one for each binding form entered; a frame lists its bindings in the
order they were declared, and a binding is a name together with the number of the slot that
holds its value. Both forms of variable look into the same environments. -/

namespace Mapling

/-- A name and where it was written. -/
structure Ident where
  name : String
  span : Span
deriving DecidableEq, Repr, Inhabited

/-- A name that no source text stands behind. -/
def Ident.synthetic (name : String) : Ident := ⟨name, Span.synthetic⟩

/-- A lexical address: `depth` counts the binding forms outward from the innermost, `offset`
the declarations of that form. -/
structure Address where
  depth : Nat
  offset : Nat
deriving DecidableEq, Repr, Inhabited

/-- An address is written `[depth,offset]`. -/
def Address.text (a : Address) : String :=
  "[" ++ toString a.depth ++ "," ++ toString a.offset ++ "]"

/-- A declared name and the slot its value is kept in. -/
structure Binding where
  name : String
  slot : Nat
deriving DecidableEq, Repr, Inhabited

/-- The bindings of one binding form, in the order they were declared. -/
abbrev Frame := List Binding

/-- The frames in scope, innermost first. -/
abbrev Env := List Frame

namespace Env

/-- The innermost binding of a name; within a frame the last declaration counts. -/
def find? : Env → String → Option Binding
  | [], _ => none
  | f :: env, x =>
    match f.reverse.find? (fun b => b.name == x) with
    | some b => some b
    | none => find? env x

def at? (env : Env) (a : Address) : Option Binding :=
  match env[a.depth]? with
  | some f => f[a.offset]?
  | none => none

def names (env : Env) : List String :=
  env.flatMap (fun f => f.reverse.map Binding.name)

end Env

/-- A form of variable: how it is written and which binding it refers to. -/
class Variable (V : Type) where
  text : V → String
  lookup : Env → V → Option Binding

instance : Variable Ident where
  text x := x.name
  lookup env x := env.find? x.name

instance : Variable Address where
  text := Address.text
  lookup := Env.at?

end Mapling
