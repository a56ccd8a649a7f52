import Mapling.Proofs.Arena.History
import Mapling.Proofs.Scope.Agreement
import Mapling.Proofs.Scope.Lexical

/-! # Resolved programs find their variables

Evaluating a resolved program is in step with evaluating the program it came from, in a store
where all code is well scoped, and computations in step do not fail to find a variable. That
covers whatever is done later with the values: what was put off or captured in a closure is code
of the store, and stays well scoped however late it is evaluated.

A run in an arena follows the eager evaluator. To the evaluator a program that starts is alone,
whatever else the arena holds, so the arena may be one in which other programs ran before. -/

namespace Mapling

variable {α β : Type}

/-- Started in the store, the computation does not fail to find a variable. -/
def FindsVariables (y : Eval Address Layout α) (s : Store Address Layout) : Prop :=
  ∀ x s', outcome y s ≠ some (.error (.unboundVariable x), s')

/-! ## Stores of resolved programs -/

structure Scoped (s : Store Address Layout) (vs : List (Value Address Layout)) : Prop where
  store : ∃ t : Store Ident Unit, t.WellScoped ∧ s = t.addressed
  values : ∀ w ∈ vs, ∃ v, SameValue v w

namespace Scoped

variable {Q : α → β → Prop} {s s' : Store Address Layout} {vs : List (Value Address Layout)}
  {x : Eval Ident Unit α} {y : Eval Address Layout β} {o : Except EvalError β}

theorem findsVariables (hs : Scoped s vs) (hxy : InStep Q x y) : FindsVariables y s := by
  obtain ⟨t, ht, rfl⟩ := hs.store
  intro name s' ho
  have hagree := hxy t ht
  rw [ho] at hagree
  generalize outcome x t = o at hagree
  cases hagree with
  | error _ hbound _ => cases hbound

/-- Computing in step keeps the store scoped, and gives a scoped value. -/
theorem after (hs : Scoped s vs) (hxy : InStep Q x y) (ho : outcome y s = some (o, s')) :
    Scoped s' vs ∧ ∀ b, o = .ok b → ∃ a, Q a b := by
  obtain ⟨t, ht, rfl⟩ := hs.store
  have hagree := hxy t ht
  rw [ho] at hagree
  generalize outcome x t = o at hagree
  cases hagree with
  | error _ _ ht' => exact ⟨⟨⟨_, ht', rfl⟩, hs.values⟩, nofun⟩
  | ok hab ht' =>
    refine ⟨⟨⟨_, ht', rfl⟩, hs.values⟩, fun b hb => ?_⟩
    cases hb
    exact ⟨_, hab⟩

theorem newMachine (hs : Scoped s vs) (config : Config) : Scoped (s.newMachine config).2 vs := by
  obtain ⟨t, ht, rfl⟩ := hs.store
  exact ⟨⟨(t.newMachine config).2, ⟨ht.slots, ht.cells⟩, rfl⟩, hs.values⟩

end Scoped

theorem InStep.program {p : NamedExpr} {r : AddressedExpr} (h : p.resolve = .ok r) (n : Nat)
    (m : Machine) : InStep SameValue (Machine.eval n m [] p) (Machine.eval n m [] r) := by
  obtain ⟨hfaults, rfl⟩ := Expr.resolve_eq_ok_iff.mp h
  exact InStep.eval n m [] p ⟨Env.distinct_nil, hfaults⟩

/-! ## Sessions -/

/-- The values obtained so far, and the store they are in. Resolved programs are evaluated one
after another, each by a machine of its own; in between, values obtained before are rendered and
compared. Any of this may fail. -/
inductive Obtained : Store Address Layout → List (Value Address Layout) → Prop
  | start : Obtained .empty []
  | evaluate {s s' : Store Address Layout} {vs : List (Value Address Layout)} {n : Nat}
      {config : Config} {p : NamedExpr} {r : AddressedExpr}
      {o : Except EvalError (Value Address Layout)} (before : Obtained s vs)
      (resolved : p.resolve = .ok r)
      (run : outcome (Machine.eval n (s.newMachine config).1 [] r) (s.newMachine config).2 =
        some (o, s')) : Obtained s' (o.toOption.toList ++ vs)
  | render {s s' : Store Address Layout} {vs : List (Value Address Layout)} {n : Nat}
      {v : Value Address Layout} {o : Except EvalError String} (before : Obtained s vs)
      (mem : v ∈ vs) (run : outcome (v.render n) s = some (o, s')) : Obtained s' vs
  | equals {s s' : Store Address Layout} {vs : List (Value Address Layout)} {n k : Nat}
      {v w : Value Address Layout} {o : Except EvalError Bool} (before : Obtained s vs)
      (left : v ∈ vs) (right : w ∈ vs)
      (run : outcome (Eval.equals (Machine.eval n) k v w) s = some (o, s')) : Obtained s' vs

/-- What is obtained by evaluating resolved programs is scoped. -/
theorem Obtained.scoped {s : Store Address Layout} {vs : List (Value Address Layout)}
    (h : Obtained s vs) : Scoped s vs := by
  induction h with
  | start => exact ⟨⟨.empty, .empty, by simp [Store.addressed, Store.empty]⟩, nofun⟩
  | @evaluate s s' vs n config p r o before resolved run ih =>
    obtain ⟨hs', hvalue⟩ := (ih.newMachine config).after (.program resolved n _) run
    refine ⟨hs'.store, fun w hw => ?_⟩
    rcases List.mem_append.mp hw with hw | hw
    · cases o with
      | error e => cases hw
      | ok v =>
        obtain rfl := List.mem_singleton.mp hw
        exact hvalue w rfl
    · exact hs'.values w hw
  | render before mem run ih =>
    obtain ⟨v, hv⟩ := ih.values _ mem
    exact (ih.after ((InStep.render _).1 _ _ hv) run).1
  | equals before left right run ih =>
    obtain ⟨v, hv⟩ := ih.values _ left
    obtain ⟨w, hw⟩ := ih.values _ right
    exact (ih.after (InStep.equals (InStep.eval _) _ hv hw) run).1

/-! ## Arenas -/

variable {r : Run}

theorem Laid.matches {forms : List (Nat × Form)} {h : Heap} {e : AddressedExpr}
    (hr : Laid forms h (r.prepare e).2) (config : Config) :
    Matches forms ⟨config, 0⟩ ((r.prepare e).2.arena.words.toList.map .fixed) (r.prepare e).2
      (Store.empty.newMachine config).2 := by
  refine .ofRun config ?_ rfl rfl hr.known
  rw [hr.words, hr.whole]
  exact List.prefix_append _ _

/-- A program in a used arena follows the eager evaluator on its own. -/
theorem Reached.follows (hr : Reached r) (limit n : Nat) (e : AddressedExpr) :
    ∃ forms ω s Q, Follows forms ⟨⟨.value, .value, limit⟩, 0⟩ n ω s (r.prepare e).2
      (Store.empty.newMachine ⟨.value, .value, limit⟩).2
      (fun k => ArenaEval.eval limit k none (r.prepare e).1)
      (Machine.eval n ⟨⟨.value, .value, limit⟩, 0⟩ [] e) Q := by
  obtain ⟨forms, h, hforms, hsub, hlaid⟩ := hr.laidOut.prepare e
  have hfollows := Follows.eval (m := ⟨⟨.value, .value, limit⟩, 0⟩) ⟨rfl, rfl⟩
    (Form.identified_of_nodup hforms) (Form.sameArities_of_nodup hforms) n _ _ _ [] none
    (r.prepare e).1 (hlaid.matches _) .nil hsub
  have hunsited : (r.prepare e).1.unsited = e := Expr.unsited_sited _ e
  rw [hunsited] at hfollows
  exact ⟨forms, _, _, _, hfollows⟩

/-- A program in a used arena fails as the eager evaluator does, or for lack of room. -/
theorem evaluate_of_program_eq_error {r' : Run} (hr : Reached r) {limit n : Nat}
    {e : AddressedExpr} {err : EvalError}
    (hrun : r.program limit n e = some (.error (.eval err), r')) :
    ∃ s, evaluate n ⟨.value, .value, limit⟩ e = some (.error err, s) := by
  obtain ⟨forms, ω, s, Q, hfollows⟩ := hr.follows limit n e
  rcases hfollows.forth _ hrun with ⟨c, hc⟩ | ⟨o', ho', hcorr⟩
  · cases hc
  · cases hcorr with
    | error _ _ s => exact ⟨s, ho'⟩

/-- `let x := 1 / 0; in x : ()` -/
def latentFailure : NamedExpr :=
  let x : Ident := .synthetic "x"
  .mkLet [(x, .mkBinary .div (.int .synthetic 1) (.int .synthetic 0))]
    (.mkApp (.prim .synthetic .cons) [.mkVar x, .null .synthetic])

end Mapling
