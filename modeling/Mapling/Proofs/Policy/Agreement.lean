import Mapling.Proofs.Policy.Texts

/-! # Pure programs agree under every policy

A pure program that has a value when everything is evaluated at once has the same value, written
in full, under each of the nine pairs of policies, as soon as the depth limit is large enough
(`evaluateText_policies`). What can be told apart is how often a function is made, so the program
must not compare functions. -/

namespace Mapling

variable {s : Store Address Layout}

/-- What a pure program has when everything is evaluated at once and no closures are compared it has
under every pair of policies, with every depth limit that is large enough. -/
theorem ends_of_comparing_no_closures {p : AddressedExpr} {n k d : Nat} {v : Value Address Layout}
    {s' : Store Address Layout} {a : String} (hpure : p.isPure = true)
    (hv : evaluateWith Eval.equalsUnlessClosure n ⟨.value, .value, d⟩ p = some (.ok v, s))
    (hrender : outcome (v.render k) s = some (.ok a, s')) (binding cons : Policy) :
    ∃ N, ∀ d', N ≤ d' → Ends (fun n => evaluateText n ⟨binding, cons, d'⟩ p) (.ok a) := by
  -- the eager run shows what the program means, and everything is evaluated when it is written
  let σ : Eagerness := ⟨true, true, false, false⟩
  let m : Machine := ⟨⟨.value, .value, d⟩, 0⟩
  obtain ⟨B1, -, hs1, -, k1, hm⟩ := Traced.eval (m := m)
    (ComparisonTraced.equalsUnlessClosure (σ := σ) rfl) ⟨rfl, rfl⟩ n [] _ [] p hpure
    (Traces.start _ _) v s hv
  rw [← Value.renderWith_equals] at hrender
  obtain ⟨B, hB, hs, -, k2, ha⟩ := (Traced.renderWith (m := m) (σ := σ) (fun _ h => nomatch h) k).1
    (hm.isPure hs1.pure hpure) hs1 a s' hrender
  refine ⟨max k1 k2, fun d' hd' => ?_⟩
  exact ends_of_means_eagerly hpure hs.pure (hm.mono hB (Nat.le_max_left k1 k2))
    (ha.mono (List.prefix_refl B) (Nat.le_max_right k1 k2))
    ⟨fun _ => rfl, fun _ => rfl, (by rintro ⟨⟩), (by rintro ⟨⟩)⟩ hd'

/-- Under every pair of policies, and with every depth limit that is large enough, a pure program
has the value that it has when everything is evaluated at once, provided that it never compares
values with closures in them. -/
theorem evaluateText_policies {p : AddressedExpr} {n d : Nat} {a : String}
    (hpure : p.isPure = true) (heval : evaluateText n ⟨.value, .value, d⟩ p = some (.ok a))
    (hcompare : NeverComparesClosures n ⟨.value, .value, d⟩ p) (binding cons : Policy) :
    ∃ N, ∀ d', N ≤ d' → Ends (fun n => evaluateText n ⟨binding, cons, d'⟩ p) (.ok a) := by
  rw [evaluateText_eq] at heval
  obtain ⟨⟨r, s'⟩, ho, rfl⟩ := Option.map_eq_some_iff.mp heval
  obtain ⟨v, s, hv, hrender⟩ := outcome_bind_ok.mp ho
  rw [← evaluate_eq_outcome, ← hcompare] at hv
  exact ends_of_comparing_no_closures hpure hv hrender binding cons

/-- Two recursive functions, and a list with one of them and the factorials that it computes. -/
def factorials : AddressedExpr :=
  let int (k : Int) : AddressedExpr := .int .synthetic k
  let var (depth offset : Nat) : AddressedExpr := .var .synthetic ⟨depth, offset⟩
  let isZero : AddressedExpr := .binary .synthetic .eq (var 0 0) (int 0)
  let less : AddressedExpr := .binary .synthetic .sub (var 0 0) (int 1)
  .letIn .synthetic .recursive
    [(.synthetic "factorial", .map .synthetic [.synthetic "n"] ⟨1⟩ (.cond .synthetic isZero (int 1)
      (.binary .synthetic .mul (var 0 0) (.app .synthetic (var 1 0) [less])))),
    (.synthetic "all", .map .synthetic [.synthetic "n"] ⟨1⟩ (.cond .synthetic isZero
      (.null .synthetic) (.app .synthetic (.prim .synthetic .cons)
        [.app .synthetic (var 1 0) [var 0 0], .app .synthetic (var 1 1) [less]])))] ⟨2⟩
    (.app .synthetic (.prim .synthetic .cons) [var 0 0, .app .synthetic (var 0 1) [int 3]])

theorem evaluateText_policies_factorials :
    evaluateText 30 ⟨.value, .value, 20⟩ factorials = some (.ok "(<closure/1> 6 2 1)") ∧
      ∃ N, ∀ d, N ≤ d →
        Ends (fun n => evaluateText n ⟨.name, .need, d⟩ factorials) (.ok "(<closure/1> 6 2 1)") :=
by
  have heval : evaluateText 30 ⟨.value, .value, 20⟩ factorials =
      some (.ok "(<closure/1> 6 2 1)") := by decide +kernel
  have hints : (evaluateWith Eval.equalsInts 30 ⟨.value, .value, 20⟩ factorials).isSome = true := by
    decide +kernel
  exact ⟨heval, evaluateText_policies rfl heval (.of_ints hints) .name .need⟩

end Mapling
