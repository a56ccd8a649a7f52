/-! # JSON values

A tree that keeps the members of objects in order, repeated keys included, and its compact
text. -/

namespace Mapling

inductive Json where
  | null
  | bool (b : Bool)
  | int (n : Int)
  /-- A number that is not written as an integer, kept as it is written. -/
  | real (written : String)
  | str (s : String)
  | arr (items : List Json)
  | obj (members : List (String × Json))
  /-- A well-formed text that denotes nothing: a string with an unpaired surrogate in it, an
  object with such a key, or a number that is too large. -/
  | unreadable
deriving Inhabited

namespace Json

def hexDigit (n : Nat) : Char := Char.ofNat (if n < 10 then 48 + n else 87 + n)

/-- How a character is written in a string: quotes, backslashes and control characters are
escaped, everything else stands for itself. -/
def escapedChar (c : Char) : List Char :=
  if c = '"' then ['\\', '"']
  else if c = '\\' then ['\\', '\\']
  else if c = '\n' then ['\\', 'n']
  else if c = '\r' then ['\\', 'r']
  else if c = '\t' then ['\\', 't']
  else if c = Char.ofNat 8 then ['\\', 'b']
  else if c = Char.ofNat 12 then ['\\', 'f']
  else if c.toNat < 32 then
    ['\\', 'u', '0', '0', hexDigit (c.toNat / 16), hexDigit (c.toNat % 16)]
  else [c]

def quoted (s : String) : List Char := '"' :: (s.toList.flatMap escapedChar ++ ['"'])

mutual

/-- The compact text of a value, as characters. -/
def chars : Json → List Char
  | .null => "null".toList
  | .bool b => (if b then "true" else "false").toList
  | .int n => (toString n).toList
  | .real written => written.toList
  | .str s => quoted s
  | .arr items => '[' :: (itemChars items ++ [']'])
  | .obj members => '\x7b' :: (memberChars members ++ ['\x7d'])
  | .unreadable => "null".toList

def itemChars : List Json → List Char
  | [] => []
  | [j] => chars j
  | j :: js => chars j ++ ',' :: itemChars js

def memberChars : List (String × Json) → List Char
  | [] => []
  | [m] => oneMemberChars m
  | m :: ms => oneMemberChars m ++ ',' :: memberChars ms

def oneMemberChars : String × Json → List Char
  | (key, j) => quoted key ++ ':' :: chars j

end

def text (j : Json) : String := String.ofList j.chars

mutual

/-- How deeply arrays and objects are nested in a value. -/
def depth : Json → Nat
  | .arr items => itemsDepth items + 1
  | .obj members => membersDepth members + 1
  | _ => 0

def itemsDepth : List Json → Nat
  | [] => 0
  | j :: js => max (depth j) (itemsDepth js)

def membersDepth : List (String × Json) → Nat
  | [] => 0
  | m :: ms => max (memberDepth m) (membersDepth ms)

def memberDepth : String × Json → Nat
  | (_, j) => depth j

end

mutual

/-- Whether every part of a value denotes something. -/
def isReadable : Json → Bool
  | .arr items => itemsReadable items
  | .obj members => membersReadable members
  | .unreadable => false
  | _ => true

def itemsReadable : List Json → Bool
  | [] => true
  | j :: js => isReadable j && itemsReadable js

def membersReadable : List (String × Json) → Bool
  | [] => true
  | m :: ms => memberReadable m && membersReadable ms

def memberReadable : String × Json → Bool
  | (_, j) => isReadable j

end

end Json

end Mapling
