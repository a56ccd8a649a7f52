import Mapling.Expr
import Mapling.Policy

/-! # Values and the store

Everything that evaluation changes is kept in a store: slots, which hold the state of one
binding or of one part of a pair; cells, which hold what a reference refers to; and the depth
counter of each machine. A value names slots and cells by their numbers, so two values are the
same pair or the same reference when their numbers agree. A closure carries a number of its
own. -/

namespace Mapling

/-- An evaluator: how it evaluates and which depth counter it uses. -/
structure Machine where
  config : Config
  counter : Nat
deriving DecidableEq, Repr, Inhabited

/-- A function together with the environment it was made in. -/
structure Closure (V L : Type) where
  params : List Ident
  layout : L
  body : Expr V L
  env : Env

def Closure.arity {V L : Type} (c : Closure V L) : Nat := c.params.length

inductive Value (V L : Type) where
  | int (n : Int)
  | bool (b : Bool)
  /-- The empty list. -/
  | null
  /-- A pair, by the slots of its two parts. -/
  | pair (head tail : Nat)
  | closure (id : Nat) (c : Closure V L)
  | prim (p : Prim)
  | ref (cell : Nat)
  /-- What an assignment yields. -/
  | unit
deriving Inhabited

namespace Value

variable {V L : Type}

def isList : Value V L → Bool
  | .null | .pair _ _ => true
  | _ => false

def isFunction : Value V L → Bool
  | .closure _ _ | .prim _ => true
  | _ => false

def kind : Value V L → String
  | .int _ => "int"
  | .bool _ => "bool"
  | .null => "null"
  | .pair _ _ => "pair"
  | .closure _ _ => "closure"
  | .prim _ => "primitive"
  | .ref _ => "ref"
  | .unit => "unit"

end Value

/-- An expression to be evaluated later, by the machine that put it off. -/
structure Suspension (V L : Type) where
  expr : Expr V L
  env : Env
  machine : Machine

/-- The state of one binding or of one part of a pair. -/
inductive Slot (V L : Type) where
  /-- Declared; its definition has not been evaluated. -/
  | uninit
  | ready (v : Value V L)
  /-- Evaluated on every access. -/
  | byName (s : Suspension V L)
  /-- Evaluated on the first access; the result is kept. -/
  | byNeed (s : Suspension V L)
  /-- Being evaluated by need. -/
  | forcing
deriving Inhabited

namespace Slot

variable {V L : Type}

def isReady : Slot V L → Bool
  | .ready _ => true
  | _ => false

def value? : Slot V L → Option (Value V L)
  | .ready v => some v
  | _ => none

end Slot

structure Store (V L : Type) where
  slots : Array (Slot V L)
  cells : Array (Value V L)
  depths : Array Nat
  /-- How many closures have been made. -/
  closures : Nat

namespace Store

variable {V L : Type}

def empty : Store V L := ⟨#[], #[], #[], 0⟩

instance : Inhabited (Store V L) := ⟨empty⟩

/-- The state of a slot; one that does not exist is never initialised. -/
def slot (s : Store V L) (i : Nat) : Slot V L := s.slots.getD i .uninit

def setSlot (s : Store V L) (i : Nat) (x : Slot V L) : Store V L :=
  { s with slots := s.slots.setIfInBounds i x }

def cell (s : Store V L) (i : Nat) : Value V L := s.cells.getD i .unit

def setCell (s : Store V L) (i : Nat) (v : Value V L) : Store V L :=
  { s with cells := s.cells.setIfInBounds i v }

def newRef (s : Store V L) (v : Value V L) : Value V L × Store V L :=
  (.ref s.cells.size, { s with cells := s.cells.push v })

def newPair (s : Store V L) (head tail : Slot V L) : Value V L × Store V L :=
  let i := s.slots.size
  (.pair i (i + 1), { s with slots := (s.slots.push head).push tail })

def newClosure (s : Store V L) (c : Closure V L) : Value V L × Store V L :=
  (.closure s.closures c, { s with closures := s.closures + 1 })

/-- A new frame declaring the names, in order, in slots that are not initialised. -/
def newFrame (s : Store V L) (names : List String) : Frame × Store V L :=
  let first := s.slots.size
  (names.mapIdx (fun i x => ⟨x, first + i⟩),
    { s with slots := s.slots ++ Array.replicate names.length .uninit })

def depth (s : Store V L) (m : Machine) : Nat := s.depths.getD m.counter 0

def setDepth (s : Store V L) (m : Machine) (d : Nat) : Store V L :=
  { s with depths := s.depths.setIfInBounds m.counter d }

def newMachine (s : Store V L) (config : Config) : Machine × Store V L :=
  (⟨config, s.depths.size⟩, { s with depths := s.depths.push 0 })

end Store

end Mapling
