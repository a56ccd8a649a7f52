import Mapling.Text.Blank

/-! # Evaluation policies

A policy says when an expression that is bound is evaluated. The binding policy is about
definitions and arguments, the cons policy about the two parts of a pair; they are chosen
independently of each other. -/

namespace Mapling

inductive Policy where
  /-- At once. -/
  | value
  /-- On every access. -/
  | name
  /-- On the first access; the result is kept. -/
  | need
deriving DecidableEq, Repr, Inhabited

namespace Policy

def all : List Policy := [.value, .name, .need]

def word : Policy → String
  | .value => "value"
  | .name => "name"
  | .need => "need"

/-- Whether anything is put off at all. -/
def isLazy : Policy → Bool
  | .value => false
  | _ => true

def ofWord? (s : String) : Option Policy := all.find? (fun p => p.word == s)

/-- A word that names no policy, in lower case and without the white space around it. -/
structure Unknown where
  word : String
deriving DecidableEq, Repr

def Unknown.message (u : Unknown) : String :=
  "unknown evaluation policy '" ++ u.word ++ "' (expected value, name or need)"

/-- Read a policy written by hand: white space around it and the case of ASCII letters do not
matter, and `eager` and `lazy` are other words for `value` and `need`. -/
def parse (s : String) : Except Unknown Policy :=
  let word := String.ofList ((trimWhiteSpace s.toList).map Char.toLower)
  if word = "value" ∨ word = "eager" then .ok .value
  else if word = "name" then .ok .name
  else if word = "need" ∨ word = "lazy" then .ok .need
  else .error ⟨word⟩

end Policy

/-- How a program is evaluated: the two policies, and how deep calls and suspended evaluations
may nest. -/
structure Config where
  binding : Policy
  cons : Policy
  maxDepth : Nat
deriving DecidableEq, Repr

namespace Config

def defaultDepth : Nat := 10000

/-- The configuration with the given policies and the usual depth. -/
def ofPolicies (binding cons : Policy) : Config := ⟨binding, cons, defaultDepth⟩

/-- Everything is evaluated at once. -/
def eager : Config := ofPolicies .value .value

instance : Inhabited Config := ⟨eager⟩

/-- The nine pairs of policies, by the binding policy first. -/
def all : List Config :=
  Policy.all.flatMap (fun b => Policy.all.map (fun c => ofPolicies b c))

def text (c : Config) : String := "binding=" ++ c.binding.word ++ " cons=" ++ c.cons.word

end Config

end Mapling
