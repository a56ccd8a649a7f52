/-! # Errors of evaluation -/

namespace Mapling

/-- Why an evaluation failed. Values that a message shows are kept as they were shown. -/
inductive EvalError where
  | unboundVariable (name : String)
  /-- A binding was read before its definition was evaluated. -/
  | forwardReference (name : String)
  /-- An operator or a primitive was given a value of the wrong kind. -/
  | typeMismatch (op value : String)
  | divisionByZero
  | integerOverflow (op : String)
  | notAFunction (value : String)
  | arityMismatch (callee : String) (expected actual : Nat)
  /-- A primitive on lists was given something else. -/
  | notAList (prim value : String)
  /-- Calls and suspended evaluations were nested too deeply. -/
  | depthExceeded (limit : Nat)
deriving DecidableEq, Repr, Inhabited

def EvalError.message : EvalError → String
  | .unboundVariable name => "unbound variable '" ++ name ++ "'"
  | .forwardReference name => "'" ++ name ++ "' referenced before its definition was evaluated"
  | .typeMismatch op value => "type mismatch: '" ++ op ++ "' cannot be applied to " ++ value
  | .divisionByZero => "division by zero"
  | .integerOverflow op => "integer overflow in '" ++ op ++ "'"
  | .notAFunction value => value ++ " is not a function"
  | .arityMismatch callee expected actual =>
    callee ++ " expects " ++ toString expected ++ " argument(s) but was given " ++
      toString actual
  | .notAList prim value => "'" ++ prim ++ "' requires a list, got " ++ value
  | .depthExceeded limit => "evaluation depth limit of " ++ toString limit ++ " exceeded"

end Mapling
