import Mapling.Expr

/-! # Numbered expressions

A program that runs in an arena has its binding forms numbered. The number of a `map` says which
body it has, and the number of a definition form which definitions: maps with the same number
share their body, so functions made from them share their code. A program in which nothing is
shared is numbered by `Expr.sited`, which uses no number twice. -/

namespace Mapling

/-- A binding form of a program: how many slots its frame has, and its number. -/
structure Site where
  slots : Nat
  number : Nat
deriving DecidableEq, Repr, Inhabited

/-- An addressed expression whose binding forms are numbered. -/
abbrev SitedExpr := Expr Address Site

namespace Expr

mutual

/-- The expression with its binding forms numbered from `n` on, and the next number. -/
def sited (n : Nat) : AddressedExpr → SitedExpr × Nat
  | .int s k => (.int s k, n)
  | .bool s b => (.bool s b, n)
  | .null s => (.null s, n)
  | .var s x => (.var s x, n)
  | .prim s p => (.prim s p, n)
  | .unary s op e =>
    let (e, n) := sited n e
    (.unary s op e, n)
  | .binary s op l r =>
    let (l, n) := sited n l
    let (r, n) := sited n r
    (.binary s op l r, n)
  | .app s f args =>
    let (f, n) := sited n f
    let (args, n) := sitedAll n args
    (.app s f args, n)
  | .map s params layout body =>
    let (body, m) := sited (n + 1) body
    (.map s params ⟨layout.slots, n⟩ body, m)
  | .cond s t a b =>
    let (t, n) := sited n t
    let (a, n) := sited n a
    let (b, n) := sited n b
    (.cond s t a b, n)
  | .letIn s kind defs layout body =>
    let (defs, m) := sitedDefs (n + 1) defs
    let (body, m) := sited m body
    (.letIn s kind defs ⟨layout.slots, n⟩ body, m)
  | .block s es =>
    let (es, n) := sitedAll n es
    (.block s es, n)

def sitedAll (n : Nat) : List AddressedExpr → List SitedExpr × Nat
  | [] => ([], n)
  | e :: es =>
    let (e, n) := sited n e
    let (es, n) := sitedAll n es
    (e :: es, n)

def sitedDefs (n : Nat) : List (Ident × AddressedExpr) → List (Ident × SitedExpr) × Nat
  | [] => ([], n)
  | d :: ds =>
    let (d, n) := sitedDef n d
    let (ds, n) := sitedDefs n ds
    (d :: ds, n)

def sitedDef (n : Nat) : Ident × AddressedExpr → (Ident × SitedExpr) × Nat
  | (x, e) =>
    let (e, n) := sited n e
    ((x, e), n)

end

end Expr

end Mapling
