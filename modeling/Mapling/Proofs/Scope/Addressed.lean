import Mapling.Program
import Mapling.Proofs.Scope.Lookup
import Mapling.Proofs.Value.Alike

/-! # The store of a resolved program

Evaluating a program with names and evaluating the resolved program take the same steps on the
same slots. Environments are the same on both sides, because a frame keeps the names that were
declared along with the slots. What differs is code: the bodies of closures and the expressions
that were put off. Resolving these in the scopes of the environment they carry turns a store of
the first evaluation into the store of the second. -/

namespace Mapling

/-- How a name is written plays no part after resolution; how a callee is written does. Two
errors are the same but for the text of a callee. -/
def EvalError.SameButCallee : EvalError → EvalError → Prop
  | .arityMismatch _ expected actual, e => ∃ callee, e = .arityMismatch callee expected actual
  | e, e' => e = e'

@[simp] theorem EvalError.SameButCallee.refl (e : EvalError) : e.SameButCallee e := by
  cases e with
  | arityMismatch callee _ _ => exact ⟨callee, rfl⟩
  | _ => rfl

/-! ## Resolving what a store holds -/

def Closure.addressed (c : Closure Ident Unit) : Closure Address Layout :=
  ⟨c.params, ⟨c.params.length⟩, c.body.addressed (c.params.map Ident.name :: c.env.scopes), c.env⟩

def Value.addressed : Value Ident Unit → Value Address Layout
  | .int n => .int n
  | .bool b => .bool b
  | .null => .null
  | .pair h t => .pair h t
  | .closure i c => .closure i c.addressed
  | .prim p => .prim p
  | .ref i => .ref i
  | .unit => .unit

def Suspension.addressed (s : Suspension Ident Unit) : Suspension Address Layout :=
  ⟨s.expr.addressed s.env.scopes, s.env, s.machine⟩

def Slot.addressed : Slot Ident Unit → Slot Address Layout
  | .uninit => .uninit
  | .ready v => .ready v.addressed
  | .byName s => .byName s.addressed
  | .byNeed s => .byNeed s.addressed
  | .forcing => .forcing

def Store.addressed (s : Store Ident Unit) : Store Address Layout :=
  ⟨s.slots.map Slot.addressed, s.cells.map Value.addressed, s.depths, s.closures⟩

/-! ## Code whose names are all declared -/

/-- Every name of the expression is declared in the environment, and no form declares a name
twice. -/
structure WellScoped (env : Env) (e : NamedExpr) : Prop where
  distinct : env.Distinct
  faults : e.scopeFaults env.scopes = []

structure Closure.WellScoped (c : Closure Ident Unit) : Prop where
  distinct : c.env.Distinct
  params : (c.params.map Ident.name).Nodup
  faults : c.body.scopeFaults (c.params.map Ident.name :: c.env.scopes) = []

def Value.WellScoped : Value Ident Unit → Prop
  | .closure _ c => c.WellScoped
  | _ => True

def Slot.WellScoped : Slot Ident Unit → Prop
  | .ready v => v.WellScoped
  | .byName s | .byNeed s => Mapling.WellScoped s.env s.expr
  | _ => True

structure Store.WellScoped (s : Store Ident Unit) : Prop where
  slots : ∀ i, (s.slot i).WellScoped
  cells : ∀ i, (s.cell i).WellScoped

/-! ## Reading and writing a resolved store -/

namespace Value

@[simp] theorem kind_addressed (v : Value Ident Unit) : v.addressed.kind = v.kind := by
  cases v <;> rfl

@[simp] theorem isList_addressed (v : Value Ident Unit) : v.addressed.isList = v.isList := by
  cases v <;> rfl

@[simp] theorem isFunction_addressed (v : Value Ident Unit) :
    v.addressed.isFunction = v.isFunction := by
  cases v <;> rfl

end Value

namespace Store

variable (s : Store Ident Unit)

@[simp] theorem slot_addressed (i : Nat) : s.addressed.slot i = (s.slot i).addressed := by
  simp only [slot, addressed, Array.getD_eq_getD_getElem?, Array.getElem?_map]
  cases s.slots[i]? <;> rfl

@[simp] theorem cell_addressed (i : Nat) : s.addressed.cell i = (s.cell i).addressed := by
  simp only [cell, addressed, Array.getD_eq_getD_getElem?, Array.getElem?_map]
  cases s.cells[i]? <;> rfl

@[simp] theorem depth_addressed (m : Machine) : s.addressed.depth m = s.depth m := rfl

theorem setSlot_addressed (i : Nat) (x : Slot Ident Unit) :
    (s.setSlot i x).addressed = s.addressed.setSlot i x.addressed := by
  simp [setSlot, addressed, Array.map_setIfInBounds]

theorem setCell_addressed (i : Nat) (v : Value Ident Unit) :
    (s.setCell i v).addressed = s.addressed.setCell i v.addressed := by
  simp [setCell, addressed, Array.map_setIfInBounds]

theorem newRef_addressed (v : Value Ident Unit) :
    s.addressed.newRef v.addressed = ((s.newRef v).1.addressed, (s.newRef v).2.addressed) := by
  simp [newRef, addressed, Value.addressed]

theorem newPair_addressed (head tail : Slot Ident Unit) :
    s.addressed.newPair head.addressed tail.addressed =
      ((s.newPair head tail).1.addressed, (s.newPair head tail).2.addressed) := by
  simp [newPair, addressed, Value.addressed]

theorem newFrame_addressed (names : List String) :
    s.addressed.newFrame names = ((s.newFrame names).1, (s.newFrame names).2.addressed) := by
  simp [newFrame, addressed, Slot.addressed]

/-- A store that has nothing but a machine is its own resolved form. -/
theorem newMachine_addressed (config : Config) :
    ((empty : Store Ident Unit).newMachine config).2.addressed = (empty.newMachine config).2 := by
  simp [addressed, newMachine, empty]

end Store

/-- A resolved value looks like the value it comes from. -/
theorem alike_addressed (s : Store Ident Unit) (v : Value Ident Unit) (w : Value Address Layout)
    (h : w = v.addressed) : Alike (fun v w => w = v.addressed) s s.addressed v w := by
  have hslot : ∀ i, Option.Rel (fun v w => w = Value.addressed v) (s.slot i).value?
      (s.addressed.slot i).value? := by
    intro i
    rw [Store.slot_addressed]
    cases s.slot i with
    | ready v => exact .some rfl
    | _ => exact .none
  subst h
  cases v with
  | pair h k => exact .pair (hslot h) (hslot k)
  | ref i => exact .ref (Store.cell_addressed s i)
  | closure i c => exact .closure rfl
  | int n => exact .int n
  | bool b => exact .bool b
  | null => exact .null
  | prim p => exact .prim p
  | unit => exact .unit

/-- Resolving the code inside a value does not change its text. -/
theorem text_addressed (s : Store Ident Unit) (n : Nat) (v : Value Ident Unit) :
    v.addressed.text s.addressed n = v.text s n :=
  ((text_eq_of_alike (alike_addressed s) n).1 v _ rfl).symm

end Mapling
