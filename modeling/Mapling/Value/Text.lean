import Mapling.Value

/-! # Values as text

The text of a value shows what has been computed so far and evaluates nothing: a part that is
still put off is shown as three dots. A number bounds how far the text goes; only a value that
contains itself has no text at all. -/

namespace Mapling

namespace Value

variable {V L : Type}

def plainText : Value V L → String
  | .int n => toString n
  | .bool b => if b then "true" else "false"
  | .null => "()"
  | .unit => "unit"
  | .prim p => p.name
  | .closure _ c => "<closure/" ++ toString c.arity ++ ">"
  | .ref _ | .pair _ _ => "..."

mutual

def text (s : Store V L) : Nat → Value V L → Option String
  | 0, _ => none
  | n + 1, .ref i => do return "(ref " ++ (← text s n (s.cell i)) ++ ")"
  | n + 1, .pair h t => do return "(" ++ (← itemsText s n h t) ++ ")"
  | _ + 1, v => some v.plainText

/-- The items of a list, given by the slots of its first pair, with blanks between them. -/
def itemsText (s : Store V L) : Nat → Nat → Nat → Option String
  | 0, _, _ => none
  | n + 1, h, t => do
    let head ← match (s.slot h).value? with
      | some v => text s n v
      | none => some "..."
    match (s.slot t).value? with
    | some (.pair h t) => return head ++ " " ++ (← itemsText s n h t)
    | some .null => return head
    | some v => return head ++ " . " ++ (← text s n v)
    | none => return head ++ " ..."

end

end Value

end Mapling
