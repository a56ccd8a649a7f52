import Mapling.Continuation
import Mapling.Eval
import Mapling.Expr.Parse
import Mapling.Scope

/-! # Programs from text to result -/

namespace Mapling

/-- Read a source text and resolve its names. -/
def compile (s : Source) : Except Report AddressedExpr := do
  match (← parseSource s).resolve with
  | .ok e => return e
  | .error report => throw (report.withSource s)

/-- Why running a text gave no result. -/
inductive RunError where
  | compile (report : Report)
  | eval (e : EvalError)
deriving DecidableEq, Repr

def RunError.message : RunError → String
  | .compile report => report.text
  | .eval e => "runtime error: " ++ e.message

def Source.input (text : String) : Source := ⟨"<input>", text⟩

/-- Evaluate a program and write its value in full. The number bounds the recursion. -/
def evaluateText (n : Nat) (config : Config) (e : AddressedExpr) :
    Option (Except EvalError String) := do
  match ← evaluate n config e with
  | (.error e, _) => return .error e
  | (.ok v, s) => return (← (v.render n : Eval Address Layout String).run.run s).1

/-- Read, resolve and evaluate a program text; the result is its value in full. -/
def runSource (n : Nat) (config : Config) (text : String) : Option (Except RunError String) :=
  match compile (.input text) with
  | .error report => some (.error (.compile report))
  | .ok e => (evaluateText n config e).map (fun r => r.mapError .eval)

end Mapling
