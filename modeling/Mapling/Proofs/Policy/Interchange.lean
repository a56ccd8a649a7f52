import Mapling.Proofs.Policy.Texts
import Mathlib

/-! # Keeping results cannot be observed

Whether what was put off is evaluated once or on every access makes no difference for a pure
program: it has the same text under two pairs of policies that put off the same things
(`evaluateText_lazily`), if only integers, truth values, the empty list and primitives are
compared. That includes programs that have no value when everything is evaluated at once. -/

namespace Mapling

variable {config : Config} {p : AddressedExpr}

/-- What is found by comparing plain values only is what evaluation finds. -/
theorem evaluateText_of_plain {n : Nat} {r : Except EvalError String}
    (h : evaluateTextWith Eval.equalsPlain n config p = some r) :
    evaluateText n config p = some r :=
  evaluateText_of_below Below.equalsPlain h

/-- If the run succeeds, it compares plain values only: it is the same when comparing other values
has no outcome. -/
def ComparesPlain (config : Config) (p : AddressedExpr) : Prop :=
  ∀ a, Ends (fun n => evaluateText n config p) (.ok a) →
    Ends (fun n => evaluateTextWith Eval.equalsPlain n config p) (.ok a)

theorem ComparesPlain.of_ends {r : Except EvalError String}
    (h : Ends (fun n => evaluateTextWith Eval.equalsPlain n config p) r) :
    ComparesPlain config p := by
  intro a hends
  obtain ⟨N, hN⟩ := h
  have hsame : Ends (fun n => evaluateText n config p) r :=
    ⟨N, fun n hn => evaluateText_of_plain (hN n hn)⟩
  rw [hends.unique hsame]
  exact ⟨N, hN⟩

/-- What one pair of policies finds by comparing plain values only, every pair finds that puts off
the same things. -/
theorem ends_of_comparesPlain {config' : Config} {n : Nat} {a : String} (hpure : p.isPure = true)
    (hlazy : config'.eagerness = config.eagerness)
    (h : evaluateTextWith Eval.equalsPlain n config p = some (.ok a)) :
    ∃ N, ∀ d, N ≤ d → Ends (fun n => evaluateText n { config' with maxDepth := d } p) (.ok a) := by
  obtain ⟨⟨r, s'⟩, ho, rfl⟩ := Option.map_eq_some_iff.mp h
  obtain ⟨v, s, hv, hrender⟩ := outcome_bind_ok.mp ho
  have hev := Traced.eval (V := Address) (L := Layout) (m := ⟨config, 0⟩)
    ComparisonTraced.equalsPlain config.fits
  obtain ⟨B1, -, hs1, -, k1, hm⟩ := hev n [] _ [] p hpure (Traces.start _ config) v s hv
  obtain ⟨B, hB, hs, -, k2, ha⟩ := (Traced.renderWith (fun n _ => hev n) n).1
    (hm.isPure hs1.pure hpure) hs1 a s' hrender
  refine ⟨max k1 k2, fun d hd => ?_⟩
  have hm := hm.mono hB (Nat.le_max_left k1 k2)
  have ha := ha.mono (List.prefix_refl B) (Nat.le_max_right k1 k2)
  rw [← hlazy] at hm ha
  exact ends_of_means hpure hs.pure hm ha hd

/-- A pure program that compares plain values only has the same text under two pairs of policies
that differ by evaluating by name what the other evaluates by need. -/
theorem evaluateText_lazily {p : AddressedExpr} {b c b' c' : Policy} (hpure : p.isPure = true)
    (hb : b'.isLazy = b.isLazy) (hc : c'.isLazy = c.isLazy)
    (hplain : ∀ d, ComparesPlain ⟨b, c, d⟩ p) (hplain' : ∀ d, ComparesPlain ⟨b', c', d⟩ p)
    (a : String) :
    (∃ d, Ends (fun n => evaluateText n ⟨b, c, d⟩ p) (.ok a)) ↔
      ∃ d, Ends (fun n => evaluateText n ⟨b', c', d⟩ p) (.ok a) := by
  have hswap : ∀ {b c b' c' : Policy}, b'.isLazy = b.isLazy → c'.isLazy = c.isLazy →
      (∀ d, ComparesPlain ⟨b, c, d⟩ p) →
      (∃ d, Ends (fun n => evaluateText n ⟨b, c, d⟩ p) (.ok a)) →
      ∃ d, Ends (fun n => evaluateText n ⟨b', c', d⟩ p) (.ok a) := by
    rintro b c b' c' hb hc hplain ⟨d, hends⟩
    obtain ⟨n, hn⟩ := hplain d a hends
    have hsame : (Config.mk b' c' 0).eagerness = (Config.mk b c d).eagerness := by
      rw [Config.eagerness, Config.eagerness, hb, hc]
    obtain ⟨N, hN⟩ := ends_of_comparesPlain hpure hsame (hn n le_rfl)
    exact ⟨N, hN N le_rfl⟩
  exact ⟨hswap hb hc hplain, hswap hb.symm hc.symm hplain'⟩

/-- A list that is its own tail. It has no value when the parts of pairs are evaluated at once and
no text when it is written in full, but its items can be read. -/
def ones : AddressedExpr :=
  let int (k : Int) : AddressedExpr := .int .synthetic k
  let call (p : Prim) (args : List AddressedExpr) : AddressedExpr :=
    .app .synthetic (.prim .synthetic p) args
  let list : AddressedExpr := .var .synthetic ⟨0, 0⟩
  .letIn .synthetic .recursive [(.synthetic "ones", call .cons [int 1, list])] ⟨1⟩
    (.cond .synthetic (.binary .synthetic .eq (call .first [call .rest [list]]) (int 1))
      (call .cons [call .first [list], .null .synthetic]) list)

/-- The run of `ones` by need ends with a text, unless nothing may be nested at all. -/
theorem ones_by_need (d : Nat) :
    Ends (fun n => evaluateTextWith Eval.equalsPlain n ⟨.need, .need, d⟩ ones)
      (if d = 0 then .error (.depthExceeded 0) else .ok "(1)") := by
  match d with
  | 0 => exact ⟨12, fun n hn => by obtain ⟨n, rfl⟩ := Nat.exists_eq_add_of_le' hn; cbv⟩
  | d + 1 => exact ⟨12, fun n hn => by obtain ⟨n, rfl⟩ := Nat.exists_eq_add_of_le' hn; cbv⟩

/-- By name it needs one level more. -/
theorem ones_by_name (d : Nat) :
    Ends (fun n => evaluateTextWith Eval.equalsPlain n ⟨.name, .name, d⟩ ones)
      (if d < 2 then .error (.depthExceeded d) else .ok "(1)") := by
  match d with
  | 0 => exact ⟨12, fun n hn => by obtain ⟨n, rfl⟩ := Nat.exists_eq_add_of_le' hn; cbv⟩
  | 1 => exact ⟨12, fun n hn => by obtain ⟨n, rfl⟩ := Nat.exists_eq_add_of_le' hn; cbv⟩
  | d + 2 => exact ⟨12, fun n hn => by obtain ⟨n, rfl⟩ := Nat.exists_eq_add_of_le' hn; cbv⟩

theorem evaluateText_lazily_ones :
    (∃ d, Ends (fun n => evaluateText n ⟨.need, .need, d⟩ ones) (.ok "(1)")) ∧
      ∃ d, Ends (fun n => evaluateText n ⟨.name, .name, d⟩ ones) (.ok "(1)") := by
  obtain ⟨N, hN⟩ := ones_by_need 1
  have hneed : ∃ d, Ends (fun n => evaluateText n ⟨.need, .need, d⟩ ones) (.ok "(1)") :=
    ⟨1, N, fun n hn => evaluateText_of_plain (hN n hn)⟩
  have hlazy : Policy.name.isLazy = Policy.need.isLazy := rfl
  have hplain : ∀ d, ComparesPlain ⟨.need, .need, d⟩ ones := fun d => .of_ends (ones_by_need d)
  have hplain' : ∀ d, ComparesPlain ⟨.name, .name, d⟩ ones := fun d => .of_ends (ones_by_name d)
  exact ⟨hneed, (evaluateText_lazily rfl hlazy hlazy hplain hplain' "(1)").mp hneed⟩

end Mapling
