import Mapling.Eval.Error

/-! # Errors of an arena -/

namespace Mapling

/-- Why working in an arena failed. -/
inductive ArenaError where
  /-- The program itself went wrong. -/
  | eval (e : EvalError)
  /-- There is no room for another cell. -/
  | exhausted (capacity : Nat)
  /-- The tag of a cell does not fit its use. -/
  | corruptCell (addr : Nat) (tag : Int)
  /-- There is no such word. -/
  | invalidAddress (word : Int)
deriving DecidableEq, Repr, Inhabited

def ArenaError.message : ArenaError → String
  | .eval e => e.message
  | .exhausted capacity =>
    "arena exhausted: all " ++ toString capacity ++ " words are in use"
  | .corruptCell addr tag =>
    "corrupt cell at word " ++ toString addr ++ ": unexpected tag " ++ toString tag
  | .invalidAddress word => "word " ++ toString word ++ " is not a valid arena address"

end Mapling
