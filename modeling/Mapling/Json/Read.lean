import Mapling.Json
import Mapling.Json.Magnitude

/-! # Reading JSON

The grammar of JSON, with blanks allowed around every part. A string whose escapes leave a
surrogate unpaired and a number that is too large are well formed but denote nothing. -/

namespace Mapling

namespace Json

def isBlank (c : Char) : Bool := c == ' ' || c == '\n' || c == '\t' || c == '\r'

def skipBlanks (cs : List Char) : List Char := cs.dropWhile isBlank

/-- The rest after the given characters, if the text starts with them. -/
def afterWord? : List Char → List Char → Option (List Char)
  | [], cs => some cs
  | w :: ws, c :: cs => if w == c then afterWord? ws cs else none
  | _ :: _, [] => none

/-! ## Strings -/

def hexValue? (c : Char) : Option Nat :=
  let n := c.toNat
  if c.isDigit then some (n - 48)
  else if 97 ≤ n ∧ n ≤ 102 then some (n - 87)
  else if 65 ≤ n ∧ n ≤ 70 then some (n - 55)
  else none

/-- A part of a string: a character, or a sixteen-bit unit given by an escape. -/
inductive StrPart where
  | char (c : Char)
  | unit (u : Nat)

/-- The parts of a string up to its closing quote, and the rest after that. -/
def strParts? : List Char → Option (List StrPart × List Char)
  | [] => none
  | '"' :: cs => some ([], cs)
  | '\\' :: 'u' :: a :: b :: c :: d :: cs =>
    match hexValue? a, hexValue? b, hexValue? c, hexValue? d with
    | some a, some b, some c, some d =>
      (strParts? cs).map
        (fun r => (.unit (a * 4096 + b * 256 + c * 16 + d) :: r.1, r.2))
    | _, _, _, _ => none
  | '\\' :: e :: cs =>
    let simple : Option Char := match e with
      | '"' => some '"'
      | '\\' => some '\\'
      | '/' => some '/'
      | 'b' => some (Char.ofNat 8)
      | 'f' => some (Char.ofNat 12)
      | 'n' => some '\n'
      | 'r' => some '\r'
      | 't' => some '\t'
      | _ => none
    match simple with
    | some s => (strParts? cs).map (fun r => (.char s :: r.1, r.2))
    | none => none
  | c :: cs =>
    if c.toNat < 32 ∨ c = '\\' then none
    else (strParts? cs).map (fun r => (.char c :: r.1, r.2))

def isHighSurrogate (u : Nat) : Bool := 0xD800 ≤ u && u ≤ 0xDBFF

def isLowSurrogate (u : Nat) : Bool := 0xDC00 ≤ u && u ≤ 0xDFFF

/-- The text the parts spell: a high surrogate and the low one after it are one character, and
no other surrogate spells anything. -/
def spelled? : List StrPart → Option (List Char)
  | [] => some []
  | .char c :: ps => (spelled? ps).map (c :: ·)
  | .unit u :: .unit v :: ps =>
    if isHighSurrogate u then
      if isLowSurrogate v then
        (spelled? ps).map (Char.ofNat (0x10000 + (u - 0xD800) * 1024 + (v - 0xDC00)) :: ·)
      else none
    else if isLowSurrogate u then none
    else (spelled? (.unit v :: ps)).map (Char.ofNat u :: ·)
  | .unit u :: ps =>
    if isHighSurrogate u || isLowSurrogate u then none
    else (spelled? ps).map (Char.ofNat u :: ·)

/-- A string after its opening quote; no text if its parts spell none. -/
def strBody? (cs : List Char) : Option (Option String × List Char) :=
  (strParts? cs).map (fun r => ((spelled? r.1).map String.ofList, r.2))

/-! ## Numbers -/

def digits? (cs : List Char) : Option (List Char × List Char) :=
  match cs.takeWhile Char.isDigit with
  | [] => none
  | ds => some (ds, cs.dropWhile Char.isDigit)

/-- The part of a number before its fraction: zero, or digits that do not start with zero. -/
def wholePart? : List Char → Option (List Char × List Char)
  | '0' :: cs => some (['0'], cs)
  | cs => digits? cs

def fraction? : List Char → Option (List Char × List Char)
  | '.' :: cs => (digits? cs).map (fun r => ('.' :: r.1, r.2))
  | cs => some ([], cs)

def exponent? : List Char → Option (List Char × List Char)
  | c :: cs =>
    if c = 'e' ∨ c = 'E' then
      match cs with
      | s :: ds =>
        if s = '+' ∨ s = '-' then (digits? ds).map (fun r => (c :: s :: r.1, r.2))
        else (digits? cs).map (fun r => (c :: r.1, r.2))
      | [] => none
    else some ([], c :: cs)
  | [] => some ([], [])

/-- The value of an exponent as it is written; none is zero. -/
def exponentValue : List Char → Int
  | _ :: '-' :: ds => -(Nat.ofDigitChars 10 ds 0 : Int)
  | _ :: '+' :: ds => Nat.ofDigitChars 10 ds 0
  | _ :: ds => Nat.ofDigitChars 10 ds 0
  | [] => 0

/-- A number without its sign. Written with neither fraction nor exponent it is an integer;
minus zero is not. -/
def unsigned? (negative : Bool) (cs : List Char) : Option (Json × List Char) := do
  let (whole, cs) ← wholePart? cs
  let (frac, cs) ← fraction? cs
  let (exp, cs) ← exponent? cs
  let n := Nat.ofDigitChars 10 whole 0
  let sign := if negative then ['-'] else []
  let value :=
    if exceeds whole (frac.drop 1) (exponentValue exp) then Json.unreadable
    else if frac.isEmpty && exp.isEmpty && !(negative && n == 0) then
      Json.int (if negative then -(n : Int) else n)
    else Json.real (String.ofList (sign ++ whole ++ frac ++ exp))
  return (value, cs)

/-! ## Values -/

/-- The items of an array after the first, given a way to read one value; `n` bounds how many
there are. -/
def items? (value? : List Char → Option (Json × List Char)) :
    Nat → List Char → Option (List Json × List Char)
  | 0, _ => none
  | n + 1, cs =>
    match skipBlanks cs with
    | ']' :: cs => some ([], cs)
    | ',' :: cs => do
      let (j, cs) ← value? cs
      let (js, cs) ← items? value? n cs
      return (j :: js, cs)
    | _ => none

def member? (value? : List Char → Option (Json × List Char)) (cs : List Char) :
    Option ((Option String × Json) × List Char) :=
  match skipBlanks cs with
  | '"' :: cs => do
    let (key, cs) ← strBody? cs
    match skipBlanks cs with
    | ':' :: cs =>
      let (j, cs) ← value? cs
      return ((key, j), cs)
    | _ => none
  | _ => none

/-- The members of an object after the first. -/
def members? (value? : List Char → Option (Json × List Char)) :
    Nat → List Char → Option (List (Option String × Json) × List Char)
  | 0, _ => none
  | n + 1, cs =>
    match skipBlanks cs with
    | '\x7d' :: cs => some ([], cs)
    | ',' :: cs => do
      let (m, cs) ← member? value? cs
      let (ms, cs) ← members? value? n cs
      return (m :: ms, cs)
    | _ => none

/-- The object with these members; every key has to be a text. -/
def ofMembers (ms : List (Option String × Json)) : Json :=
  match ms.mapM (fun m => m.1.map (fun key => (key, m.2))) with
  | some members => .obj members
  | none => .unreadable

/-- A value at the start of a text, and the rest; `n` bounds how deep it is nested and how many
parts each of its parts has. -/
def value? : Nat → List Char → Option (Json × List Char)
  | 0, _ => none
  | n + 1, cs =>
    match skipBlanks cs with
    | 'n' :: cs => (afterWord? ['u', 'l', 'l'] cs).map (fun r => (.null, r))
    | 't' :: cs => (afterWord? ['r', 'u', 'e'] cs).map (fun r => (.bool true, r))
    | 'f' :: cs => (afterWord? ['a', 'l', 's', 'e'] cs).map (fun r => (.bool false, r))
    | '"' :: cs =>
      (strBody? cs).map (fun r => (match r.1 with
        | some s => .str s
        | none => .unreadable, r.2))
    | '[' :: cs =>
      match skipBlanks cs with
      | ']' :: cs => some (.arr [], cs)
      | _ => do
        let (j, cs) ← value? n cs
        let (js, cs) ← items? (value? n) n cs
        return (.arr (j :: js), cs)
    | '\x7b' :: cs =>
      match skipBlanks cs with
      | '\x7d' :: cs => some (.obj [], cs)
      | _ => do
        let (m, cs) ← member? (value? n) cs
        let (ms, cs) ← members? (value? n) n cs
        return (ofMembers (m :: ms), cs)
    | '-' :: cs => unsigned? true cs
    | c :: cs => if c.isDigit then unsigned? false (c :: cs) else none
    | [] => none

/-- The value a whole text denotes, if the text is one. -/
def read? (s : String) : Option Json :=
  match value? (s.toList.length + 1) s.toList with
  | some (j, rest) => if (skipBlanks rest).isEmpty then some j else none
  | none => none

end Json

end Mapling
