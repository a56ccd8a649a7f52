import Mapling.Proofs.Outcome

/-! # Evaluation with a chronicle

The evaluator changes slots in many places, and what it did to one of them along the way cannot be
read off the store it leaves. In the monad below the evaluator does the same work and writes down,
in order, every state that a slot is put in, every result that a suspension evaluated by need comes
to, and every value that a slot gives to whoever accesses it. An evaluation that uses up its number
leaves its chronicle as well, so an evaluation that never ends has chronicles of any length.

`Slots.Sessions` proves that the chronicle does not influence the work, and what every chronicle
looks like. -/

namespace Mapling

/-- Something that happens to a slot. -/
inductive Moment (V L : Type) where
  /-- It is put in a state; when it is made, in its first one. -/
  | state (x : Slot V L)
  /-- The evaluation by need of its suspension is over. -/
  | result (r : Except EvalError (Value V L))
  /-- It gives a value to whoever accesses it. -/
  | access (v : Value V L)

/-- What happened to which slot, the latest first. -/
abbrev Chronicle (V L : Type) := List (Nat × Moment V L)

def Chronicle.history {V L : Type} (c : Chronicle V L) (i : Nat) : List (Moment V L) :=
  (c.filter (fun entry => entry.1 = i)).map Prod.snd

/-- Why an evaluation has no result. -/
inductive Stop where
  | error (e : EvalError)
  /-- The number that bounds the recursion is used up. -/
  | exhausted

abbrev Chronicled (V L : Type) := ExceptT Stop (StateM (Store V L × Chronicle V L))

namespace Chronicled

variable {V L α β : Type}

/-- What a computation gives, with the store and the chronicle afterwards. -/
def account (x : Chronicled V L α) (s : Store V L) (c : Chronicle V L) :
    Except Stop α × Store V L × Chronicle V L := x.run.run (s, c)

def forget : Except Stop α × Store V L × Chronicle V L → Option (Except EvalError α × Store V L)
  | (.ok a, s, _) => some (.ok a, s)
  | (.error (.error e), s, _) => some (.error e, s)
  | (.error .exhausted, _, _) => none

def write (entries : Chronicle V L) : Chronicled V L Unit :=
  ExceptT.mk fun (s, c) => (.ok (), s, entries ++ c)

/-- Run `x` and then change the store and write entries down, whether it fails or not. -/
def andThen (x : Chronicled V L α) (change : Except EvalError α → Store V L → Store V L)
    (entries : Except EvalError α → Chronicle V L) : Chronicled V L α := ExceptT.mk fun t =>
  match x.run.run t with
  | (.ok a, s, c) => (.ok a, change (.ok a) s, entries (.ok a) ++ c)
  | (.error (.error e), s, c) => (.error (.error e), change (.error e) s, entries (.error e) ++ c)
  | (.error .exhausted, s, c) => (.error .exhausted, s, c)

instance : MonadState (Store V L) (Chronicled V L) where
  get := ExceptT.mk fun (s, c) => (.ok s, s, c)
  set s := ExceptT.mk fun (_, c) => (.ok ⟨⟩, s, c)
  modifyGet f := ExceptT.mk fun (s, c) => (.ok (f s).1, (f s).2, c)

instance : MonadExcept EvalError (Chronicled V L) where
  throw e := ExceptT.mk fun t => (.error (.error e), t)
  tryCatch x handle := ExceptT.mk fun t =>
    match x.run.run t with
    | (.error (.error e), t) => (handle e).run.run t
    | r => r

instance : EvalOps V L (Chronicled V L) where
  exhausted := ExceptT.mk fun t => (.error .exhausted, t)
  andThen x change := andThen x change (fun _ => [])
  put i x := do
    modify (fun s => s.setSlot i x)
    write [(i, .state x)]
  settle i state x := andThen x (fun r s => s.setSlot i (state r))
    (fun r => [(i, .state (state r)), (i, .result r)])
  give i x := do
    let v ← x
    write [(i, .access v)]
    return v
  newFrame names := do
    let frame ← modifyGet (fun s => s.newFrame names)
    write (frame.map (fun b => (b.slot, .state .uninit)))
    return frame
  newPair head tail := do
    let i := (← get).slots.size
    let v ← modifyGet (fun s => s.newPair head tail)
    write [(i + 1, .state tail), (i, .state head)]
    return v

end Chronicled

end Mapling
