import Mapling.Arena
import Mapling.Json.Fields
import Mapling.Policy

/-! # Configurations of an arena -/

namespace Mapling

/-- How a program runs in an arena: for how many words there is room, and how deep calls may
nest. -/
structure ArenaConfig where
  capacity : Nat
  maxDepth : Nat
deriving DecidableEq, Repr

namespace ArenaConfig

def standard : ArenaConfig := ⟨Arena.defaultCapacity, Config.defaultDepth⟩

instance : Inhabited ArenaConfig := ⟨standard⟩

def toJson (c : ArenaConfig) : Json :=
  .obj [("capacity", .int c.capacity), ("max_depth", .int c.maxDepth)]

/-- What is missing is taken from the standard configuration. -/
def ofJson? : Json → Option ArenaConfig
  | .obj members => do
    let capacity ← Json.optional? Json.size? standard.capacity "capacity" members
    let maxDepth ← Json.optional? Json.size? standard.maxDepth "max_depth" members
    return ⟨capacity, maxDepth⟩
  | .arr items => do
    let (capacity, items) ← Json.optionalItem? Json.size? standard.capacity items
    let (maxDepth, items) ← Json.optionalItem? Json.size? standard.maxDepth items
    if items.isEmpty then return ⟨capacity, maxDepth⟩ else none
  | _ => none

def read? (s : String) : Option ArenaConfig := (Json.read? s).bind ofJson?

end ArenaConfig

end Mapling
