import Mapling.Json.Fields
import Mapling.Policy

/-! # Configurations as JSON -/

namespace Mapling

def Policy.ofJson? : Json → Option Policy := Json.word? ofWord?

namespace Config

def toJson (c : Config) : Json :=
  .obj [("binding", .str c.binding.word), ("cons", .str c.cons.word),
    ("max_depth", .int c.maxDepth)]

/-- What is missing is taken from the eager configuration. -/
def ofJson? : Json → Option Config
  | .obj members => do
    let binding ← Json.optional? Policy.ofJson? eager.binding "binding" members
    let cons ← Json.optional? Policy.ofJson? eager.cons "cons" members
    let maxDepth ← Json.optional? Json.size? eager.maxDepth "max_depth" members
    return ⟨binding, cons, maxDepth⟩
  | .arr items => do
    let (binding, items) ← Json.optionalItem? Policy.ofJson? eager.binding items
    let (cons, items) ← Json.optionalItem? Policy.ofJson? eager.cons items
    let (maxDepth, items) ← Json.optionalItem? Json.size? eager.maxDepth items
    if items.isEmpty then return ⟨binding, cons, maxDepth⟩ else none
  | _ => none

def read? (s : String) : Option Config := (Json.read? s).bind ofJson?

end Config

end Mapling
