import Mapling.Json.Read

/-! # Reading records from JSON

A record is an object with its fields as members, or an array of its fields in order. Keys that
name no field mean nothing, and no field may be given twice. -/

namespace Mapling

namespace Json

/-- Sizes are below two to the power of 64. -/
def sizeBound : Nat := 18446744073709551616

/-- An integer from zero up to, not including, the bound. -/
def natBelow? (bound : Nat) : Json → Option Nat
  | .int (.ofNat n) => if n < bound then some n else none
  | _ => none

def size? : Json → Option Nat := natBelow? sizeBound

def string? : Json → Option String
  | .str s => some s
  | _ => none

/-- One of finitely many words, given by a text or as the only key of an object with nothing
under it. -/
def word? {α : Type} (ofWord? : String → Option α) : Json → Option α
  | .str s => ofWord? s
  | .obj [(s, .null)] => ofWord? s
  | _ => none

/-- A field that may be left out: the value under the key, which occurs at most once. -/
def optional? {α : Type} (read? : Json → Option α) (default : α) (key : String)
    (members : List (String × Json)) : Option α :=
  match members.filter (fun m => m.1 == key) with
  | [] => some default
  | [m] => read? m.2
  | _ => none

/-- The first item of an array, which may be missing, and the other items. -/
def optionalItem? {α : Type} (read? : Json → Option α) (default : α) :
    List Json → Option (α × List Json)
  | [] => some (default, [])
  | j :: js => (read? j).map (fun a => (a, js))

end Json

end Mapling
