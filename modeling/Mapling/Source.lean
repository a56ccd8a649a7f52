/-! # Source texts

A source has a name and a text. Its lines are the pieces between newlines; the lexer reads it
as its UTF-8 bytes, each byte kept as the character with that number. -/

namespace Mapling

/-- A named program text. -/
structure Source where
  name : String
  text : String
deriving DecidableEq, Repr, Inhabited

/-- The pieces of `cs` between newlines; there is always at least one. -/
def splitLines : List Char → List (List Char)
  | [] => [[]]
  | c :: cs =>
    if c = '\n' then [] :: splitLines cs
    else match splitLines cs with
      | [] => [[c]]
      | l :: ls => (c :: l) :: ls

/-- A line without the carriage returns it ends in. -/
def trimReturns (l : List Char) : List Char :=
  (l.reverse.dropWhile (· == '\r')).reverse

/-- The UTF-8 bytes of a character, each as the character with that number. -/
def utf8Bytes (c : Char) : List Char :=
  (String.utf8EncodeChar c).map (fun b => Char.ofNat b.toNat)

namespace Source

def lines (s : Source) : List (List Char) := splitLines s.text.toList

/-- How many lines the text has: one more than it has newlines. -/
def lineCount (s : Source) : Nat := s.lines.length

/-- Line `n`, counted from one, without trailing carriage returns. -/
def line? (s : Source) : Nat → Option String
  | 0 => none
  | n + 1 => s.lines[n]?.map (fun l => String.ofList (trimReturns l))

def bytes (s : Source) : List Char := s.text.toList.flatMap utf8Bytes

end Source

end Mapling
