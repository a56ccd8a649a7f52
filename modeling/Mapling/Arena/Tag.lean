import Mapling.Operator

/-! # Cells

A value in an arena is a cell: a tag word, which says what the cell holds, and the words after
it.

    int          its value
    pair         the addresses of head and tail
    ref          the address of what it refers to
    closure      arity, code index, link to the activation it was made in
    activation   link to the enclosing activation, number of slots, the slots

The cells of booleans, `null`, `unit` and the primitives have a tag only; there is one of each,
at a fixed address below all others. -/

namespace Mapling

/-- What a cell holds. -/
inductive Tag where
  | int
  | pair
  | ref
  | closure
  | activation
  | bool (b : Bool)
  | null
  | unit
  | prim (p : Prim)
deriving DecidableEq, Repr, Inhabited

namespace Tag

/-- The word for a tag: positive if there are words after it, negative for the cells that are
unique. -/
def word : Tag → Int
  | .int => 1
  | .pair => 2
  | .ref => 3
  | .closure => 4
  | .activation => 5
  | .bool true => -1
  | .bool false => -2
  | .null => -3
  | .unit => -4
  | .prim p => -10 - p.index

def ofWord? (w : Int) : Option Tag :=
  if w = 1 then some .int
  else if w = 2 then some .pair
  else if w = 3 then some .ref
  else if w = 4 then some .closure
  else if w = 5 then some .activation
  else if w = -1 then some (.bool true)
  else if w = -2 then some (.bool false)
  else if w = -3 then some .null
  else if w = -4 then some .unit
  else if w ≤ -10 then (Prim.ofIndex? (-10 - w).toNat).map .prim
  else none

theorem ofWord?_word (t : Tag) : ofWord? t.word = some t := by
  cases t with
  | bool b => cases b <;> rfl
  | prim p => cases p <;> rfl
  | _ => rfl

/-- How many words a cell takes, if the tag alone says so. -/
def size? : Tag → Option Nat
  | .int | .ref => some 2
  | .pair => some 3
  | .closure => some 4
  | .activation => none
  | .bool _ | .null | .unit | .prim _ => some 1

def prim? : Tag → Option Prim
  | .prim p => some p
  | _ => none

def isList : Tag → Bool
  | .null | .pair => true
  | _ => false

def isFunction : Tag → Bool
  | .closure | .prim _ => true
  | _ => false

end Tag

/-! ## Places inside a cell -/

namespace Cell

def intValue : Nat := 1

def pairHead : Nat := 1

def pairTail : Nat := 2

def refReferent : Nat := 1

def closureArity : Nat := 1

def closureCode : Nat := 2

def closureLink : Nat := 3

def activationLink : Nat := 1

def activationCount : Nat := 2

def activationSlots : Nat := 3

/-! ## Unique cells -/

def boolAddr (b : Bool) : Nat := if b then 0 else 1

def nullAddr : Nat := 2

def unitAddr : Nat := 3

def primAddr (p : Prim) : Nat := 4 + p.index

/-- The tags of the unique cells, in the order of their addresses. -/
def uniqueTags : List Tag :=
  [.bool true, .bool false, .null, .unit] ++ Prim.all.map .prim

/-- The words below this address are those of the unique cells; two are left unused. -/
def heapStart : Nat := 16

def reserved : List Int := uniqueTags.map Tag.word ++ [0, 0]

/-! ## Words that are not addresses -/

/-- A slot whose definition has not been evaluated. -/
def uninit : Int := -5

/-- A link that leads nowhere. -/
def noLink : Int := -1

def linkWord : Option Nat → Int
  | some a => a
  | none => noLink

end Cell

end Mapling
