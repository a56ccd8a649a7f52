import Mapling.Proofs.Arena.Equality
import Mapling.Proofs.Eval.Termination
import Mapling.Proofs.Scope.Bound
import Mathlib

/-! # Ends of decoding and of running

The cells of an arena refer to each other in cycles: a reference may be assigned a value that leads
back to it, and a recursive definition puts closures in the activation they were made in. Decoding
ends all the same, and always with a value, because the references, the closures and the
activations that a history of runs has made are a region that is closed.

A run itself ends if its program assigns nothing. It follows the eager evaluator, and that one
ends. What the arena holds from earlier runs does not matter, not even cycles. -/

namespace Mapling

/-! ## Decoding -/

/-- An activation of the heap is one of its nodes. -/
theorem Laid.linkInside_of_activation {forms : List (Nat × Form)} {h : Heap} {r : Run} {addr : Nat}
    (hr : Laid forms h r) {c : HeapCell} (hat : h.At addr c)
    (htag : r.arena.tagWord addr = .ok Tag.activation.word) :
    LinkInside r.arena h.nodes (some addr) := by
  have hactivation : r.arena.Tagged addr .activation := ⟨_, htag, Tag.ofWord?_word _⟩
  have hc := hactivation.unique (hr.tagged (.inr ⟨c, hat, rfl⟩))
  cases c with
  | activation link slots => exact (hr.closed.frame addr ⟨link, slots, hat⟩).1
  | _ => cases hc

/-- `let r := ref 0; in { r <- r; r }` -/
def selfAssigned : AddressedExpr :=
  .letIn .synthetic .plain [(.synthetic "r", .unary .synthetic .ref (.int .synthetic 0))] ⟨1⟩
    (.block .synthetic
      [.binary .synthetic .assign (.var .synthetic ⟨0, 0⟩) (.var .synthetic ⟨0, 0⟩),
       .var .synthetic ⟨0, 0⟩])

/-- A program in a used arena ends if the eager evaluator does. -/
theorem Reached.exists_ends_program {r : Run} (hr : Reached r) {limit : Nat} {e : AddressedExpr}
    {o' : Except EvalError (Value Address Layout) × Store Address Layout}
    (hends : Ends (fun n => evaluate n ⟨.value, .value, limit⟩ e) o') :
    ∃ o, Ends (fun n => r.program limit n e) o := by
  obtain ⟨N, hN⟩ := hends
  obtain ⟨forms, ω, s, Q, hfollows⟩ := hr.follows limit N e
  obtain ⟨o, ho, -⟩ := hfollows.back _ (hN N le_rfl)
  exact ⟨o, ho⟩

/-- A program without assignments comes to an end, under every policy for bindings if pairs are
eager, and with every limit. So it does in an arena of any capacity, after whatever other
programs. -/
theorem ends_of_isAssignFree :
    (∀ (V L : Type) [Variable V] (config : Config) (e : Expr V L), e.isAssignFree = true →
      config.cons = .value → ∃ o, Ends (fun n => evaluate n config e) o) ∧
    ∀ r, Reached r → ∀ (limit : Nat) (e : AddressedExpr), e.isAssignFree = true →
      ∃ o, Ends (fun n => r.program limit n e) o := by
  refine ⟨fun V L _ config e he hcons => exists_ends_evaluate hcons he, fun r hr limit e he => ?_⟩
  have hevaluate : ∃ o', Ends (fun n => evaluate n ⟨.value, .value, limit⟩ e) o' :=
    exists_ends_evaluate rfl he
  obtain ⟨o', hends⟩ := hevaluate
  exact hr.exists_ends_program hends

/-- `letrec f := map x to f(x); in f(0)` -/
def endlessCalls : AddressedExpr :=
  .letIn .synthetic .recursive
    [(.synthetic "f", .map .synthetic [.synthetic "x"] ⟨1⟩
      (.app .synthetic (.var .synthetic ⟨1, 0⟩) [.var .synthetic ⟨0, 0⟩]))]
    ⟨1⟩ (.app .synthetic (.var .synthetic ⟨0, 0⟩) [.int .synthetic 0])

/-- A function that only calls itself comes to an end at the limit. -/
theorem ends_endlessCalls :
    (evaluate 7 ⟨.name, .value, 2⟩ endlessCalls).map Prod.fst = some (.error (.depthExceeded 2)) ∧
      (∃ o, Ends (fun n => evaluate n ⟨.name, .value, 2⟩ endlessCalls) o) ∧
      ((Run.start (.withCapacity 64)).program 2 7 endlessCalls).map Prod.fst =
        some (.error (.eval (.depthExceeded 2))) ∧
      ∃ o, Ends (fun n => (Run.start (.withCapacity 64)).program 2 n endlessCalls) o := by
  obtain ⟨hevaluate, hrun⟩ := ends_of_isAssignFree
  refine ⟨rfl, hevaluate _ _ _ endlessCalls (by decide) rfl, ?_,
    hrun _ (.start 64) 2 endlessCalls (by decide)⟩
  cbv

end Mapling
