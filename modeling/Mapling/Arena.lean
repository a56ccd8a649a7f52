import Mapling.Arena.Error
import Mapling.Arena.Site
import Mapling.Arena.Tag
import Std.Data.HashMap

/-! # The arena

An arena is an array of words with room for a fixed number of them. Cells are appended and never
freed. Beside the words an arena keeps the code of its functions, which closure cells refer to
by index, and the names of the slots of its activations. -/

namespace Mapling

/-- What closures made from the same `map` have in common. -/
structure Function where
  /-- The index of the parameter names. -/
  names : Nat
  site : Site
  body : SitedExpr

/-- What an arena knows beside its words. -/
structure CodeTable where
  functions : Array Function
  names : Array (List Ident)
  /-- The index of the names of each activation, by its address. -/
  frames : Std.HashMap Nat Nat
  /-- How many binding forms have been numbered. -/
  sites : Nat

namespace CodeTable

def empty : CodeTable := ⟨#[], #[], ∅, 0⟩

def frameNames? (t : CodeTable) (frame : Nat) : Option (List Ident) :=
  t.frames[frame]?.bind (fun i => t.names[i]?)

/-- Record a list of names; the result has its index. -/
def addNames (t : CodeTable) (names : List Ident) : Nat × CodeTable :=
  (t.names.size, { t with names := t.names.push names })

/-- Record a function and the names of its parameters; the result has its index. -/
def addFunction (t : CodeTable) (params : List Ident) (site : Site) (body : SitedExpr) :
    Nat × CodeTable :=
  match t with
  | ⟨functions, names, frames, sites⟩ =>
    (functions.size, ⟨functions.push ⟨names.size, site, body⟩, names.push params, frames, sites⟩)

def recordFrame (t : CodeTable) (frame names : Nat) : CodeTable :=
  { t with frames := t.frames.insert frame names }

/-- Number the binding forms of a program. -/
def number (t : CodeTable) (e : AddressedExpr) : SitedExpr × CodeTable :=
  let (e, n) := e.sited t.sites
  (e, { t with sites := n })

end CodeTable

structure Arena where
  words : Array Int
  /-- How many words there is room for. -/
  capacity : Nat
  code : CodeTable

def addressOf (w : Int) : Except ArenaError Nat :=
  match w with
  | .ofNat a => .ok a
  | w => .error (.invalidAddress w)

def linkOf (w : Int) : Except ArenaError (Option Nat) :=
  if w = Cell.noLink then .ok none else (addressOf w).map some

namespace Arena

def defaultCapacity : Nat := 1048576

/-- An arena with the unique cells only. It has room for these in any case. -/
def withCapacity (capacity : Nat) : Arena :=
  ⟨Cell.reserved.toArray, max capacity Cell.heapStart, .empty⟩

def used (a : Arena) : Nat := a.words.size

def remaining (a : Arena) : Nat := a.capacity - a.used

/-! ## Reading -/

def word (a : Arena) (i : Nat) : Except ArenaError Int :=
  match a.words[i]? with
  | some w => .ok w
  | none => .error (.invalidAddress i)

/-- The first word of a cell. -/
def tagWord (a : Arena) (addr : Nat) : Except ArenaError Int := a.word addr

def cellSize (a : Arena) (addr : Nat) (w : Int) : Except ArenaError Nat :=
  match Tag.ofWord? w with
  | none => .error (.corruptCell addr w)
  | some t =>
    match t.size? with
    | some n => .ok n
    | none => do
      match ← a.word (addr + Cell.activationCount) with
      | .ofNat n => return Cell.activationSlots + n
      | _ => throw (.corruptCell addr w)

/-- The address after a cell. -/
def cellEnd (a : Arena) (addr : Nat) : Except ArenaError Nat := do
  let w ← a.tagWord addr
  let stop := addr + (← a.cellSize addr w)
  if stop ≤ a.used then return stop else throw (.corruptCell addr w)

/-- A word of a cell after its tag. -/
def field (a : Arena) (addr i : Nat) : Except ArenaError Int := do
  let stop ← a.cellEnd addr
  if i = 0 ∨ stop ≤ addr + i then throw (.corruptCell addr (← a.tagWord addr))
  else a.word (addr + i)

def fieldAddr (a : Arena) (addr i : Nat) : Except ArenaError Nat := do
  addressOf (← a.field addr i)

def fieldLink (a : Arena) (addr i : Nat) : Except ArenaError (Option Nat) := do
  linkOf (← a.field addr i)

def activationEnd (a : Arena) (frame : Nat) : Except ArenaError Nat := do
  let w ← a.tagWord frame
  if w = Tag.activation.word then a.cellEnd frame else throw (.corruptCell frame w)

def slots (a : Arena) (frame : Nat) : Except ArenaError (List Int) := do
  return (a.words.extract (frame + Cell.activationSlots) (← a.activationEnd frame)).toList

/-- One slot of an activation, if it has so many. -/
def slot? (a : Arena) (frame i : Nat) : Except ArenaError (Option Int) := do
  let place := frame + Cell.activationSlots + i
  if place < (← a.activationEnd frame) then return a.words[place]? else return none

def arityOf (a : Arena) (addr : Nat) : Except ArenaError Nat := do
  match ← a.field addr Cell.closureArity with
  | .ofNat k => return k
  | _ => throw (.corruptCell addr Tag.closure.word)

def functionOf (a : Arena) (addr : Nat) : Except ArenaError Function := do
  let function? := match ← a.field addr Cell.closureCode with
    | .ofNat i => a.code.functions[i]?
    | _ => none
  match function? with
  | some f => return f
  | none => throw (.corruptCell addr Tag.closure.word)

/-! ## Writing

What an operation yields and the arena afterwards. An operation that fails changes nothing. -/

/-- Append a cell; the result is its address. -/
def alloc (a : Arena) (cell : List Int) : Except ArenaError Nat × Arena :=
  if cell.length ≤ a.remaining then
    match a with
    | ⟨words, capacity, code⟩ => (.ok words.size, ⟨words.appendList cell, capacity, code⟩)
  else (.error (.exhausted a.capacity), a)

def setWord (a : Arena) (i : Nat) (w : Int) : Except ArenaError Unit × Arena :=
  if i < a.used then
    match a with
    | ⟨words, capacity, code⟩ => (.ok (), ⟨words.setIfInBounds i w, capacity, code⟩)
  else (.error (.invalidAddress i), a)

def setField (a : Arena) (addr i : Nat) (w : Int) : Except ArenaError Unit × Arena :=
  match a.field addr i with
  | .ok _ => a.setWord (addr + i) w
  | .error e => (.error e, a)

end Arena

end Mapling
