import Mapling.Continuation
import Mathlib.Tactic

/-! # Conversion ends

The conversion calls itself on expressions that are not part of the one it is given. Here it is
written once more without a reason for its end: `Converters.next` is one level of the recursion,
which leaves everything further to the functions it is given, and which gives nothing where an
expression is neither simple nor one of those that it knows how to break up. Conversion as many
levels deep as three times the weight of the program always gives a result, and it is the one of
`Expr.toCps` (`toCpsWithin_eq`). -/

namespace Mapling

variable {α : Type} {e k body : NamedExpr}

namespace Conversion

open Mapling.Expr

abbrev Attempt := StateT Naming Option

def attempt {α : Type} (x : Conversion α) : Attempt α := fun ν => some (x.run ν)

theorem attempt_bind {β : Type} (x : Conversion α) (f : α → Conversion β) :
    attempt (x >>= f) = attempt x >>= fun a => attempt (f a) := rfl

theorem attempt_pure (a : α) : attempt (pure a) = pure a := rfl

structure Converters where
  convert : NamedExpr → NamedExpr → Attempt NamedExpr
  chain : NamedExpr → List (Ident × NamedExpr) → NamedExpr → Attempt NamedExpr
  convertAll : NamedExpr → List NamedExpr → Attempt NamedExpr
  reshape : NamedExpr → Attempt NamedExpr
  reshapeAll : List NamedExpr → Attempt (List NamedExpr)
  reshapeDefs : List (Ident × NamedExpr) → Attempt (List (Ident × NamedExpr))

namespace Converters

def zero : Converters where
  convert _ _ := failure
  chain _ _ _ := failure
  convertAll _ _ := failure
  reshape _ := failure
  reshapeAll _ := failure
  reshapeDefs _ := failure

def next (C : Converters) : Converters where
  convert k e :=
    if e.isSimple then do return mkApp k [← C.reshape e]
    else match e with
      | .app s f args =>
        if f.isPrim then do
          let n ← attempt (reserve args)
          C.chain k (temporaries n args) (.app s f (standIns n args))
        else if allSimple (f :: args) then do
          let f ← C.reshape f
          let args ← C.reshapeAll args
          return .app s f (args ++ [k])
        else do
          let n ← attempt (reserve (f :: args))
          C.chain k (temporaries n (f :: args))
            (.app s (standIn n f) (standIns (countAfter n f) args))
      | .unary s op e => do
        let t ← attempt fresh
        C.chain k [(t, e)] (.unary s op (mkVar t))
      | .binary _ .and l r =>
        C.convert k (mkCond l (.binary r.span .and r (.bool .synthetic true))
          (.bool .synthetic false))
      | .binary _ .or l r =>
        C.convert k (mkCond l (.bool .synthetic true)
          (.binary r.span .or r (.bool .synthetic false)))
      | .binary s op l r => do
        let n ← attempt (reserve [l, r])
        C.chain k (temporaries n [l, r]) (.binary s op (standIn n l) (standIn (countAfter n l) r))
      | .cond s t a b =>
        if t.isSimple then do
          let t ← C.reshape t
          let (k, wrap) ← attempt (share k)
          let a ← C.convert k a
          let b ← C.convert k b
          return wrap (.cond s t a b)
        else do
          let x ← attempt fresh
          C.chain k [(x, t)] (.cond s (mkVar x) a b)
      | .letIn s .plain defs _ body =>
        if defsSimple defs then do
          let defs ← C.reshapeDefs defs
          let (k, wrap) ← attempt (share k)
          let body ← C.convert k body
          return wrap (.letIn s .plain defs () body)
        else match defs with
          | [(x, e)] => do
            let (k, wrap) ← attempt (share k)
            let body ← C.convert k body
            return wrap (← C.convert (mkMap [x] body) e)
          | defs => do
            let values := defValues defs
            let n ← attempt (reserve values)
            C.chain k (temporaries n values)
              (.letIn s .plain (rebind defs (standIns n values)) () body)
      | .letIn s .recursive defs _ body => do
        match firstNonSimple defs with
        | some x =>
          attempt (refuse x)
          return e
        | none =>
          let defs ← C.reshapeDefs defs
          let (k, wrap) ← attempt (share k)
          let body ← C.convert k body
          return wrap (.letIn s .recursive defs () body)
      | .block _ es => C.convertAll k es
      | _ => failure
  chain k ts body :=
    match ts with
    | [] => C.convert k body
    | (x, e) :: ts =>
      if e.isSimple then do
        let e ← C.reshape e
        let rest ← C.chain k ts body
        return mkLet [(x, e)] rest
      else do
        let rest ← C.chain k ts body
        C.convert (mkMap [x] rest) e
  convertAll k es :=
    match es with
    | [] => C.convert k (.null .synthetic)
    | [e] => C.convert k e
    | e :: es =>
      if e.isSimple then do
        let e ← C.reshape e
        let rest ← C.convertAll k es
        return .block .synthetic [e, rest]
      else do
        let t ← attempt fresh
        let rest ← C.convertAll k es
        C.convert (mkMap [t] (.block .synthetic [mkVar t, rest])) e
  reshape e :=
    match e with
    | .int _ _ | .bool _ _ | .null _ | .var _ _ => return e
    | .prim _ p => attempt (reshapePrim p)
    | .map s params _ body => do
      let k ← attempt fresh
      let body ← C.convert (mkVar k) body
      return .map s (params ++ [k]) () body
    | .app s f args => do
      let call := .app s f (← C.reshapeAll args)
      return if isArity f then .binary s .sub call (.int .synthetic 1) else call
    | .unary s op e => do return .unary s op (← C.reshape e)
    | .binary s op l r => do
      let l ← C.reshape l
      let r ← C.reshape r
      return .binary s op l r
    | .cond s t a b => do
      let t ← C.reshape t
      let a ← C.reshape a
      let b ← C.reshape b
      return .cond s t a b
    | .letIn s kind defs _ body => do
      let defs ← C.reshapeDefs defs
      let body ← C.reshape body
      return .letIn s kind defs () body
    | .block s es => do return .block s (← C.reshapeAll es)
  reshapeAll es :=
    match es with
    | [] => return []
    | e :: es => do
      let e ← C.reshape e
      return e :: (← C.reshapeAll es)
  reshapeDefs ds :=
    match ds with
    | [] => return []
    | (x, e) :: ds => do
      let e ← C.reshape e
      return (x, e) :: (← C.reshapeDefs ds)

def within : Nat → Converters
  | 0 => zero
  | n + 1 => (within n).next

/-- The functions convert what takes less than `n` levels. -/
structure Complete (C : Converters) (n : Nat) : Prop where
  convert : ∀ {k e}, 3 * e.weight + 1 < n → C.convert k e = attempt (Conversion.convert k e)
  chain : ∀ {k ts body}, 3 * (chainWeight ts + body.weight) + 2 < n →
    C.chain k ts body = attempt (Conversion.chain k ts body)
  convertAll : ∀ {k es}, 3 * listWeight es + 2 < n →
    C.convertAll k es = attempt (Conversion.convertAll k es)
  reshape : ∀ {e}, 3 * e.weight < n → C.reshape e = attempt (Conversion.reshape e)
  reshapeAll : ∀ {es}, 3 * listWeight es < n →
    C.reshapeAll es = attempt (Conversion.reshapeAll es)
  reshapeDefs : ∀ {ds}, 3 * defsWeight ds < n →
    C.reshapeDefs ds = attempt (Conversion.reshapeDefs ds)

namespace Complete

variable {C : Converters} {n : Nat}

theorem next_reshape (hC : C.Complete n) (hn : 3 * e.weight < n + 1) :
    C.next.reshape e = attempt (Conversion.reshape e) := by
  cases e with
  | int | bool | null | var | prim => rw [Conversion.reshape]; rfl
  | binary s op l r =>
    have hlr : 1 + 2 * l.weight + 2 * r.weight ≤ (Expr.binary s op l r : NamedExpr).weight := by
      rw [weight]
      split <;> omega
    rw [Conversion.reshape]
    simp (disch := omega) only [next, attempt_bind, attempt_pure, hC.reshape]
  | _ =>
    rw [weight] at hn
    rw [Conversion.reshape]
    simp (disch := omega) only [next, attempt_bind, attempt_pure, hC.convert, hC.reshape,
      hC.reshapeAll, hC.reshapeDefs]

theorem next_chain (hC : C.Complete n) {ts : List (Ident × NamedExpr)}
    (hn : 3 * (chainWeight ts + body.weight) + 2 < n + 1) :
    C.next.chain k ts body = attempt (Conversion.chain k ts body) := by
  rw [Conversion.chain.eq_def]
  cases ts with
  | nil =>
    rw [chainWeight] at hn
    exact hC.convert (by omega)
  | cons t ts =>
    obtain ⟨x, e⟩ := t
    rw [chainWeight] at hn
    dsimp only at hn ⊢
    by_cases hs : e.isSimple
    · simp (disch := omega) only [next, hs, if_true, attempt_bind, attempt_pure, hC.chain,
        hC.reshape]
    · simp (disch := omega) only [next, hs, if_false, attempt_bind, hC.chain, hC.convert,
        Bool.false_eq_true]

/-- One level more is enough for a sequence. -/
theorem next_convertAll (hC : C.Complete n) {es : List NamedExpr}
    (hn : 3 * listWeight es + 2 < n + 1) :
    C.next.convertAll k es = attempt (Conversion.convertAll k es) := by
  match es with
  | [] =>
    rw [listWeight] at hn
    rw [Conversion.convertAll]
    exact hC.convert (by rw [weight]; omega)
  | [e] =>
    rw [listWeight] at hn
    rw [Conversion.convertAll]
    exact hC.convert (by omega)
  | e :: e' :: es =>
    rw [listWeight] at hn
    rw [Conversion.convertAll.eq_def]
    by_cases hs : e.isSimple
    · simp (disch := omega) only [next, hs, if_true, attempt_bind, attempt_pure, hC.convertAll,
        hC.reshape]
    · simp (disch := omega) only [next, hs, if_false, attempt_bind, hC.convertAll, hC.convert,
        Bool.false_eq_true]

/-- Definitions with simple values stay where they are. -/
theorem next_letIn (hC : C.Complete n) {s : Span} {kind : LetKind} {defs : List (Ident × NamedExpr)}
    (hn : 3 * (1 + defsWeight defs + body.weight) < n) :
    (do
      let defs ← C.reshapeDefs defs
      let (k, wrap) ← attempt (share k)
      let body ← C.convert k body
      return wrap (.letIn s kind defs () body)) = attempt (do
        let defs ← Conversion.reshapeDefs defs
        let (k, wrap) ← share k
        let body ← Conversion.convert k body
        return wrap (.letIn s kind defs () body)) := by
  simp (disch := omega) only [attempt_bind, attempt_pure, hC.reshapeDefs, hC.convert]

/-- One level more is enough for an expression whose parts are converted completely. -/
theorem next_convert (hC : C.Complete n) (hn : 3 * e.weight + 1 < n + 1) :
    C.next.convert k e = attempt (Conversion.convert k e) := by
  by_cases hs : e.isSimple
  · rw [Conversion.convert, dif_pos hs]
    simp (disch := omega) only [next, hs, if_true, attempt_bind, attempt_pure, hC.reshape]
  · rw [Conversion.convert, dif_neg hs]
    simp only [next, hs, if_false, Bool.false_eq_true]
    cases e with
    | int | bool | null | var | prim | map => simp [isSimple] at hs
    | app s f args =>
      rw [weight] at hn
      dsimp only
      split
      · rename_i hf
        have hargs : ¬ allSimple args := fun ha => hs (by simp [isSimple, hf, ha])
        refine bind_congr fun m => hC.chain ?_
        have := chainWeight_add_lt m args hargs
        rw [weight]
        omega
      · split
        · simp (disch := omega) only [attempt_bind, attempt_pure, hC.reshape, hC.reshapeAll]
        · rename_i hargs
          refine bind_congr fun m => hC.chain ?_
          have := chainWeight_add_lt m (f :: args) hargs
          simp only [standIns, listWeight] at this
          rw [weight]
          omega
    | unary s op e =>
      rw [weight] at hn
      have := two_le_weight e (by simpa [isSimple] using hs)
      refine bind_congr fun t => hC.chain ?_
      simp only [chainWeight, weight, mkVar]
      omega
    | binary s op l r =>
      cases op with
      | and =>
        have := weight_conjunction s l r hs
        exact hC.convert (by omega)
      | or =>
        have := weight_disjunction s l r hs
        exact hC.convert (by omega)
      | _ =>
        refine bind_congr fun m => hC.chain ?_
        have := chainWeight_add_binary_lt m s _ l r hs
        omega
    | cond s t a b =>
      rw [weight] at hn
      dsimp only
      split
      · simp (disch := omega) only [attempt_bind, attempt_pure, hC.reshape, hC.convert]
      · rename_i ht
        have := two_le_weight t ht
        refine bind_congr fun x => hC.chain ?_
        simp only [chainWeight, weight, mkVar]
        omega
    | letIn s kind defs layout body =>
      rw [weight] at hn
      cases kind with
      | plain =>
        dsimp only
        split
        · exact hC.next_letIn (by omega)
        · rename_i hd
          rcases defs with _ | ⟨⟨x, e⟩, _ | ⟨d, ds⟩⟩
          · simp [defsSimple] at hd
          · simp only [defsWeight, defWeight] at hn
            simp (disch := omega) only [attempt_bind, attempt_pure, hC.convert]
          · refine bind_congr fun m => hC.chain ?_
            have := chainWeight_add_rebind_lt m _ hd
            rw [weight]
            omega
      | recursive =>
        dsimp only
        cases firstNonSimple defs with
        | some x => rfl
        | none => exact hC.next_letIn (by omega)
    | block s es =>
      rw [weight] at hn
      exact hC.convertAll (by omega)

/-- Each level of the recursion completes the next one. -/
theorem next (hC : C.Complete n) : C.next.Complete (n + 1) where
  convert := hC.next_convert
  chain := hC.next_chain
  convertAll := hC.next_convertAll
  reshape := hC.next_reshape
  reshapeAll {es} hn := by
    cases es with
    | nil => rw [Conversion.reshapeAll]; rfl
    | cons e es =>
      rw [listWeight] at hn
      rw [Conversion.reshapeAll]
      simp (disch := omega) only [Converters.next, attempt_bind, attempt_pure, hC.reshape,
        hC.reshapeAll]
  reshapeDefs {ds} hn := by
    cases ds with
    | nil => rw [Conversion.reshapeDefs]; rfl
    | cons d ds =>
      obtain ⟨x, e⟩ := d
      rw [defsWeight, defWeight] at hn
      rw [Conversion.reshapeDefs]
      simp (disch := omega) only [Converters.next, attempt_bind, attempt_pure, hC.reshape,
        hC.reshapeDefs]

theorem within (n : Nat) : (within n).Complete n := by
  induction n with
  | zero => constructor <;> intros <;> omega
  | succ n ih => exact ih.next

end Complete

end Converters

end Conversion

open Conversion

/-- A program in continuation-passing style, converted at most `n` levels deep. -/
def toCpsWithin (n : Nat) (e : NamedExpr) : Option (Except Report NamedExpr) := do
  let (converted, naming) ← ((Converters.within n).convert identityMap e).run ⟨0, []⟩
  match naming.faults with
  | [] => return .ok converted
  | faults => return .error (Report.ofList (faults.map (fun f => f.1.diagnostic f.2)))

/-- Conversion comes to an end, at most as many levels deep as three times the weight of the program
and two more, and every expression that it comes to is simple or one that it can break up. -/
theorem toCpsWithin_eq (e : NamedExpr) (n : Nat) :
    toCpsWithin (3 * e.weight + 2 + n) e = some e.toCps := by
  have hconvert := (Converters.Complete.within (3 * e.weight + 2 + n)).convert (k := identityMap)
    (show 3 * e.weight + 1 < 3 * e.weight + 2 + n by omega)
  have hrun : (attempt (convert identityMap e)).run ⟨0, []⟩ =
      some ((convert identityMap e).run ⟨0, []⟩) := rfl
  rw [toCpsWithin, hconvert, hrun, Expr.toCps]
  obtain ⟨c, ν, faults⟩ := (convert identityMap e).run ⟨0, []⟩
  cases faults <;> rfl

end Mapling
