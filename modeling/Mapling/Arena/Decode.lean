import Mapling.Arena
import Mapling.Value

/-! # Reading cells as values

Decoding turns cells into values of the evaluator, in a store of its own. What is shared in the
arena stays shared: every reference cell and every closure is decoded once, and so is every
activation, also those that lead back to themselves. Pairs are decoded anew each time.

A number bounds the recursion; when it is used up there is no outcome. -/

namespace Mapling

/-- A value decoded from an arena. -/
abbrev CellValue := Value Address Site

/-- What has been decoded from an arena. -/
structure Decoder where
  store : Store Address Site
  /-- References and closures by their address. -/
  shared : Std.HashMap Nat CellValue
  /-- Environments by the address of their innermost activation. -/
  envs : Std.HashMap Nat Env

def Decoder.empty : Decoder := ⟨.empty, ∅, ∅⟩

/-- A computation on what has been decoded: a result or an error, or no outcome. -/
abbrev Decode := ExceptT ArenaError (StateT Decoder Option)

namespace Decode

def exhausted {α : Type} : Decode α := ExceptT.mk (fun _ => none)

def ofExcept {α : Type} : Except ArenaError α → Decode α
  | .ok x => pure x
  | .error e => throw e

def make {α : Type} (f : Store Address Site → α × Store Address Site) : Decode α :=
  modifyGet (fun d =>
    let (x, store) := f d.store
    (x, { d with store }))

def change (f : Store Address Site → Store Address Site) : Decode Unit :=
  modify (fun d => { d with store := f d.store })

/-- Remember the value of a cell. -/
def share (addr : Nat) (v : CellValue) : Decode Unit :=
  modify (fun d => { d with shared := d.shared.insert addr v })

/-- The names of the slots of an activation. A slot without a name is called after its
address. -/
def slotNames (a : Arena) (frame count : Nat) : List String :=
  let known := ((a.code.frameNames? frame).getD []).map Ident.name
  (List.range count).map (fun i => known.getD i (Address.text ⟨0, i⟩))

/-- The function a closure cell refers to, and the names of its parameters. -/
def closureCode (a : Arena) (addr : Nat) : Except ArenaError (Function × List Ident) := do
  let f ← a.functionOf addr
  match a.code.names[f.names]? with
  | some params => return (f, params)
  | none => throw (.corruptCell addr Tag.closure.word)

mutual

/-- The value of the cell at an address. -/
def value (a : Arena) : Nat → Nat → Decode CellValue
  | 0, _ => exhausted
  | n + 1, addr => do
    match (← get).shared[addr]? with
    | some v => return v
    | none =>
      let w ← ofExcept (a.tagWord addr)
      match Tag.ofWord? w with
      | some .int => return .int (← ofExcept (a.field addr Cell.intValue))
      | some (.bool b) => return .bool b
      | some .null => return .null
      | some .unit => return .unit
      | some (.prim p) => return .prim p
      | some .pair =>
        let tail ← value a n (← ofExcept (a.fieldAddr addr Cell.pairTail))
        let head ← value a n (← ofExcept (a.fieldAddr addr Cell.pairHead))
        make (fun s => s.newPair (.ready head) (.ready tail))
      | some .ref => reference a n addr
      | some .closure => closure a n addr
      | some .activation | none => throw (.corruptCell addr w)

/-- The value of a reference cell. The reference is known before what it refers to. -/
def reference (a : Arena) : Nat → Nat → Decode CellValue
  | 0, _ => exhausted
  | n + 1, addr => do
    let cell ← make (fun s => (s.cells.size, (s.newRef .unit).2))
    share addr (.ref cell)
    let v ← value a n (← ofExcept (a.fieldAddr addr Cell.refReferent))
    change (fun s => s.setCell cell v)
    return .ref cell

/-- The value of a closure cell. Its environment may lead to the closure itself, which is then
known already. -/
def closure (a : Arena) : Nat → Nat → Decode CellValue
  | 0, _ => exhausted
  | n + 1, addr => do
    let (f, params) ← ofExcept (closureCode a addr)
    let env ← frame a n (← ofExcept (a.fieldLink addr Cell.closureLink))
    match (← get).shared[addr]? with
    | some v => return v
    | none =>
      let v ← make (fun s => s.newClosure ⟨params, f.site, f.body, env⟩)
      share addr v
      return v

/-- The environment whose innermost frame is the activation a link leads to. The frame is known
before the values of its slots. -/
def frame (a : Arena) : Nat → Option Nat → Decode Env
  | 0, _ => exhausted
  | _ + 1, none => return []
  | n + 1, some addr => do
    match (← get).envs[addr]? with
    | some env => return env
    | none =>
      let outer ← frame a n (← ofExcept (a.fieldLink addr Cell.activationLink))
      let words ← ofExcept (a.slots addr)
      let bindings ← make (fun s => s.newFrame (slotNames a addr words.length))
      let env := bindings :: outer
      modify (fun d => { d with envs := d.envs.insert addr env })
      fill a n bindings words
      return env

/-- Fill the slots of a frame with the values of the cells, leaving out those that are not
initialised. -/
def fill (a : Arena) : Nat → List Binding → List Int → Decode Unit
  | 0, _, _ => exhausted
  | n + 1, b :: bs, w :: ws => do
    if w ≠ Cell.uninit then
      let v ← value a n (← ofExcept (addressOf w))
      change (fun s => s.setSlot b.slot (.ready v))
    fill a n bs ws
  | _ + 1, _, _ => return ()

end

end Decode

namespace Arena

/-- The value of the cell at an address, with the store it is in. -/
def decode (a : Arena) (n addr : Nat) : Option (Except ArenaError CellValue × Decoder) :=
  (Decode.value a n addr).run.run .empty

end Arena

end Mapling
