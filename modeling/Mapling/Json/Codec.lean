import Mapling.Json.Fields

/-! # Records and the library that writes them

A type says under which keys its fields are written; how that becomes a JSON text, and how it is
read back, is up to a library (`Library`). `Library.json` is the library that programs run with. -/

namespace Mapling

/-- A way to write the values of a type and to read them. -/
structure Codec (α : Type) where
  write : α → Json
  read? : Json → Option α

/-- What a record says about its fields, in order. -/
inductive Fields : Type → Type 1 where
  /-- A field under a key. -/
  | field {α : Type} (key : String) (c : Codec α) : Fields α
  /-- A field that is left out if there is nothing in it. -/
  | optional {α : Type} (key : String) (c : Codec α) : Fields (Option α)
  /-- The fields of another record, in the place of a field. -/
  | flatten {α : Type} (fs : Fields α) : Fields α
  | both {α β : Type} (fs : Fields α) (gs : Fields β) : Fields (α × β)
  /-- The record itself, made of the values of its fields. -/
  | make {α β : Type} (record : α → β) (parts : β → α) (fs : Fields α) : Fields β

namespace Fields

def keys {α : Type} : Fields α → List String
  | .field key _ | .optional key _ => [key]
  | .flatten fs | .make _ _ fs => fs.keys
  | .both fs gs => fs.keys ++ gs.keys

def members {α : Type} : Fields α → α → List (String × Json)
  | .field key c, a => [(key, c.write a)]
  | .optional _ _, none => []
  | .optional key c, some a => [(key, c.write a)]
  | .flatten fs, a => fs.members a
  | .both fs gs, (a, b) => fs.members a ++ gs.members b
  | .make _ parts fs, b => fs.members (parts b)

/-- The record that the members give. Each field is looked up by its key, so their order does not
matter and members with other keys mean nothing. -/
def ofMembers? {α : Type} : Fields α → List (String × Json) → Option α
  | .field key c, ms => (ms.lookup key).bind c.read?
  | .optional key c, ms =>
    match ms.lookup key with
    | none | some .null => some none
    | some j => (c.read? j).map some
  | .flatten fs, ms => fs.ofMembers? ms
  | .both fs gs, ms => do return (← fs.ofMembers? ms, ← gs.ofMembers? ms)
  | .make record _ fs, ms => (fs.ofMembers? ms).map record

/-- The record whose fields are the first items of an array, and the items that are left. -/
def ofItems? {α : Type} : Fields α → List Json → Option (α × List Json)
  | .field _ c, j :: js => (c.read? j).map (·, js)
  | .optional _ c, j :: js =>
    match j with
    | .null => some (none, js)
    | j => (c.read? j).map (fun a => (some a, js))
  | .field _ _, [] | .optional _ _, [] => none
  | .flatten fs, js => fs.ofItems? js
  | .both fs gs, js => do
    let (a, js) ← fs.ofItems? js
    let (b, js) ← gs.ofItems? js
    return ((a, b), js)
  | .make record _ fs, js => (fs.ofItems? js).map (fun r => (record r.1, r.2))

/-- Whether there is a record among the fields. -/
def flattens {α : Type} : Fields α → Bool
  | .field _ _ | .optional _ _ => false
  | .flatten _ => true
  | .both fs gs => fs.flattens || gs.flattens
  | .make _ _ fs => fs.flattens

end Fields

/-- The library that writes values and reads them: those of the types it knows, those of the types
that are declared with it, and whole texts. -/
structure Library where
  string : Codec String
  /-- Integers from zero up to, not including, a bound. -/
  unsigned (bound : Nat) : Codec Nat
  list {α : Type} (c : Codec α) : Codec (List α)
  /-- A type with finitely many values, each of which has a name. -/
  named {α : Type} (name : α → String) (all : List α) : Codec α
  /-- A type that wraps the values of another one. -/
  wrapped {α β : Type} (wrap : α → β) (content : β → α) (c : Codec α) : Codec β
  record {α : Type} (fs : Fields α) : Codec α
  text? : Json → Option String
  value? : String → Option Json

namespace Library

/-- Read a text as a value of the given type. -/
def read? {α : Type} (L : Library) (c : Codec α) (s : String) : Option α :=
  (L.value? s).bind c.read?

/-- How deeply arrays and objects may be nested in a JSON text that is read in full. -/
def nestingBound : Nat := 127

/-- A record is read from an object in which none of its keys is repeated, or from an array with its
fields in order. If another record is among the fields, then it has to be an object, all of whose
members are read in full: they denote something and are not nested too deeply, counting the two
levels around the record. -/
def record? {α : Type} (fs : Fields α) : Json → Option α
  | .obj ms =>
    let j := Json.obj ms
    if fs.flattens && !(j.isReadable && j.depth + 2 ≤ nestingBound) then none
    else if fs.keys.all (fun key => (ms.filter (fun m => m.1 == key)).length ≤ 1) then
      fs.ofMembers? ms
    else none
  | .arr js =>
    if fs.flattens then none
    else match fs.ofItems? js with
      | some (a, []) => some a
      | _ => none
  | _ => none

/-- Values as JSON, in compact texts. -/
def json : Library where
  string := ⟨.str, Json.string?⟩
  unsigned bound := ⟨fun n => .int n, Json.natBelow? bound⟩
  list c := ⟨fun as => .arr (as.map c.write), fun
    | .arr js => js.mapM c.read?
    | _ => none⟩
  named name all := ⟨fun a => .str (name a), Json.word? (fun s => all.find? (fun a => name a == s))⟩
  wrapped wrap content c := ⟨fun b => c.write (content b), fun j => (c.read? j).map wrap⟩
  record fs := ⟨fun a => .obj (fs.members a), record? fs⟩
  text? j := some j.text
  value? := Json.read?

end Library

end Mapling
