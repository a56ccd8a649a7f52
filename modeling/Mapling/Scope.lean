import Mapling.Diagnostic
import Mapling.Expr

/-! # Scope resolution

Replaces the name of every variable by its lexical address. A program resolves when every
variable is declared by an enclosing form and no form declares a name twice; otherwise every
fault is reported, in the order of the text.

A resolver walks the program once. It opens a scope for every binding form and closes it behind
the form, and it goes on after a fault. What it comes to is also said without its state: the
faults of an expression in given scopes (`scopeFaults`), and the expression with addresses
(`addressed`). -/

namespace Mapling

/-- The forms that declare names. -/
inductive BindingForm where
  | params
  | defs (kind : LetKind)
deriving DecidableEq, Repr

def BindingForm.text : BindingForm → String
  | .params => "map parameter list"
  | .defs kind => kind.keyword

/-- What can be wrong with the names of a program. -/
inductive ScopeFault where
  | unbound (x : String)
  | repeated (x : String) (form : BindingForm)
deriving DecidableEq, Repr

namespace ScopeFault

def code : ScopeFault → Code
  | .unbound _ => .unboundVariable
  | .repeated _ _ => .duplicateDeclaration

def message : ScopeFault → String
  | .unbound x => "unbound variable '" ++ x ++ "'"
  | .repeated x form => "'" ++ x ++ "' is declared more than once in the same " ++ form.text

def diagnostic (f : ScopeFault) (span : Span) : Diagnostic :=
  .ofCode f.code f.message span none

end ScopeFault

/-- The names declared around a place: those of each form in order, innermost form first. -/
abbrev Scopes := List (List String)

/-- The address of the innermost declaration of a name. -/
def Scopes.address? : Scopes → String → Option Address
  | [], _ => none
  | names :: outer, x =>
    match names.idxOf? x with
    | some i => some ⟨0, i⟩
    | none => (address? outer x).map (fun a => ⟨a.depth + 1, a.offset⟩)

/-- The declarations of a form that repeat an earlier one; `seen` are the names before. -/
def repeats (form : BindingForm) (seen : List String) : List Ident → List (ScopeFault × Span)
  | [] => []
  | x :: xs =>
    if seen.contains x.name then (.repeated x.name form, x.span) :: repeats form seen xs
    else repeats form (x.name :: seen) xs

namespace Expr

mutual

/-- Every fault of an expression in the given scopes. The repeated names of a form come before
its body; they come before the definitions if these are in the form's scope, and after them
otherwise. -/
def scopeFaults (scopes : Scopes) : NamedExpr → List (ScopeFault × Span)
  | .int _ _ | .bool _ _ | .null _ | .prim _ _ => []
  | .var _ x => if (scopes.address? x.name).isSome then [] else [(.unbound x.name, x.span)]
  | .unary _ _ e => scopeFaults scopes e
  | .binary _ _ l r => scopeFaults scopes l ++ scopeFaults scopes r
  | .app _ f args => scopeFaults scopes f ++ listFaults scopes args
  | .map _ params _ body =>
    repeats .params [] params ++ scopeFaults (params.map Ident.name :: scopes) body
  | .cond _ t a b => scopeFaults scopes t ++ scopeFaults scopes a ++ scopeFaults scopes b
  | .letIn _ .plain defs _ body =>
    defsFaults scopes defs ++ repeats (.defs .plain) [] (defs.map Prod.fst) ++
      scopeFaults (defNames defs :: scopes) body
  | .letIn _ .recursive defs _ body =>
    repeats (.defs .recursive) [] (defs.map Prod.fst) ++
      defsFaults (defNames defs :: scopes) defs ++ scopeFaults (defNames defs :: scopes) body
  | .block _ es => listFaults scopes es

def listFaults (scopes : Scopes) : List NamedExpr → List (ScopeFault × Span)
  | [] => []
  | e :: es => scopeFaults scopes e ++ listFaults scopes es

def defsFaults (scopes : Scopes) : List (Ident × NamedExpr) → List (ScopeFault × Span)
  | [] => []
  | d :: ds => defFaults scopes d ++ defsFaults scopes ds

def defFaults (scopes : Scopes) : Ident × NamedExpr → List (ScopeFault × Span)
  | (_, e) => scopeFaults scopes e

end

mutual

/-- The expression with addresses for names. A name that is not declared gets an address of no
meaning. -/
def addressed (scopes : Scopes) : NamedExpr → AddressedExpr
  | .int s n => .int s n
  | .bool s b => .bool s b
  | .null s => .null s
  | .prim s p => .prim s p
  | .var s x => .var s ((scopes.address? x.name).getD ⟨0, 0⟩)
  | .unary s op e => .unary s op (addressed scopes e)
  | .binary s op l r => .binary s op (addressed scopes l) (addressed scopes r)
  | .app s f args => .app s (addressed scopes f) (listAddressed scopes args)
  | .map s params _ body =>
    .map s params ⟨params.length⟩ (addressed (params.map Ident.name :: scopes) body)
  | .cond s t a b => .cond s (addressed scopes t) (addressed scopes a) (addressed scopes b)
  | .letIn s .plain defs _ body =>
    .letIn s .plain (defsAddressed scopes defs) ⟨defs.length⟩
      (addressed (defNames defs :: scopes) body)
  | .letIn s .recursive defs _ body =>
    .letIn s .recursive (defsAddressed (defNames defs :: scopes) defs) ⟨defs.length⟩
      (addressed (defNames defs :: scopes) body)
  | .block s es => .block s (listAddressed scopes es)

def listAddressed (scopes : Scopes) : List NamedExpr → List AddressedExpr
  | [] => []
  | e :: es => addressed scopes e :: listAddressed scopes es

def defsAddressed (scopes : Scopes) : List (Ident × NamedExpr) → List (Ident × AddressedExpr)
  | [] => []
  | d :: ds => defAddressed scopes d :: defsAddressed scopes ds

def defAddressed (scopes : Scopes) : Ident × NamedExpr → Ident × AddressedExpr
  | (x, e) => (x, addressed scopes e)

end

end Expr

/-! ## The resolver -/

/-- An open scope: the form that opened it, and the offsets of the names declared in it so far. -/
structure OpenScope where
  form : BindingForm
  offsets : List (String × Nat)

/-- The scopes that are open, innermost first, and what has been reported. -/
structure Resolver where
  scopes : List OpenScope
  report : Report

abbrev Resolving := StateM Resolver

def OpenScope.address? (x : String) : List OpenScope → Option Address
  | [] => none
  | s :: outer =>
    match s.offsets.lookup x with
    | some i => some ⟨0, i⟩
    | none => (address? x outer).map (fun a => ⟨a.depth + 1, a.offset⟩)

/-- Declare a name: its offset, or nothing if the scope declares the name already. -/
def OpenScope.define (x : String) (s : OpenScope) : Option Nat × OpenScope :=
  if (s.offsets.lookup x).isSome then (none, s)
  else
    let i := s.offsets.length
    (some i, { s with offsets := (x, i) :: s.offsets })

namespace Resolver

def start : Resolver := ⟨[], .empty⟩

def fault (f : ScopeFault) (span : Span) : Resolving Unit :=
  modify (fun r => { r with report := r.report.push (f.diagnostic span) })

/-- Declare names in the innermost scope. There is one whenever this is done. -/
def declareAll : List Ident → Resolving Unit
  | [] => return ()
  | x :: xs => do
    match (← get).scopes with
    | [] => return ()
    | s :: outer =>
      let (i, s) := s.define x.name
      modify (fun r => { r with scopes := s :: outer })
      if i.isNone then fault (.repeated x.name s.form) x.span
      declareAll xs

/-- Open a scope that declares the names, and close it when `act` is done. -/
def inScope {α : Type} (form : BindingForm) (xs : List Ident) (act : Resolving α) :
    Resolving α := do
  modify (fun r => { r with scopes := ⟨form, []⟩ :: r.scopes })
  declareAll xs
  let a ← act
  modify (fun r => { r with scopes := r.scopes.tail })
  return a

/-- The address of a variable. A name that is not declared gets an address of no meaning. -/
def addressOf (x : Ident) : Resolving Address := do
  match OpenScope.address? x.name (← get).scopes with
  | some a => return a
  | none =>
    fault (.unbound x.name) x.span
    return ⟨0, 0⟩

end Resolver

namespace Expr

mutual

def resolving : NamedExpr → Resolving AddressedExpr
  | .int s n => return .int s n
  | .bool s b => return .bool s b
  | .null s => return .null s
  | .prim s p => return .prim s p
  | .var s x => do return .var s (← Resolver.addressOf x)
  | .unary s op e => do return .unary s op (← resolving e)
  | .binary s op l r => do
    let l ← resolving l
    return .binary s op l (← resolving r)
  | .app s f args => do
    let f ← resolving f
    return .app s f (← listResolving args)
  | .map s params _ body => do
    return .map s params ⟨params.length⟩ (← Resolver.inScope .params params (resolving body))
  | .cond s t a b => do
    let t ← resolving t
    let a ← resolving a
    return .cond s t a (← resolving b)
  | .letIn s .plain defs _ body => do
    let ds ← defsResolving defs
    let xs := defs.map Prod.fst
    return .letIn s .plain ds ⟨defs.length⟩
      (← Resolver.inScope (.defs .plain) xs (resolving body))
  | .letIn s .recursive defs _ body =>
    Resolver.inScope (.defs .recursive) (defs.map Prod.fst) do
      let ds ← defsResolving defs
      return .letIn s .recursive ds ⟨defs.length⟩ (← resolving body)
  | .block s es => do return .block s (← listResolving es)

def listResolving : List NamedExpr → Resolving (List AddressedExpr)
  | [] => return []
  | e :: es => do
    let e ← resolving e
    return e :: (← listResolving es)

def defsResolving : List (Ident × NamedExpr) → Resolving (List (Ident × AddressedExpr))
  | [] => return []
  | d :: ds => do
    let d ← defResolving d
    return d :: (← defsResolving ds)

def defResolving : Ident × NamedExpr → Resolving (Ident × AddressedExpr)
  | (x, e) => do return (x, ← resolving e)

end

def resolve (e : NamedExpr) : Except Report AddressedExpr :=
  match e.resolving.run .start with
  | (e, r) => if r.report.hasErrors then .error r.report else .ok e

end Expr

end Mapling
