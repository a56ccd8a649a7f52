import Mapling.Proofs.Continuation.Rules
import Mathlib

/-! # Converted programs call last

In a converted program every call of something other than a primitive by name is the last thing
that its function, or the program, does. Where an expression stands is told by
`Expr.Occurs`, which follows the tree from the root down: the body of a function is a last position
whatever the position of the function, the body of a definition form, the branches of a conditional
and the last component of a block are last positions if the form is in one, and nothing else is. -/

namespace Mapling

namespace Expr

/-! ## Positions -/

/-- `Occurs q last e` says that `e` stands somewhere in `q`, and whether it is the last thing
evaluated by `q` or by the innermost function of `q` around it. -/
inductive Occurs (q : NamedExpr) : Bool → NamedExpr → Prop where
  | root : Occurs q true q
  | operand {last : Bool} {s : Span} {op : UnaryOp} {e : NamedExpr}
    (h : Occurs q last (.unary s op e)) : Occurs q false e
  | left {last : Bool} {s : Span} {op : BinaryOp} {l r : NamedExpr}
    (h : Occurs q last (.binary s op l r)) : Occurs q false l
  | right {last : Bool} {s : Span} {op : BinaryOp} {l r : NamedExpr}
    (h : Occurs q last (.binary s op l r)) : Occurs q false r
  | operator {last : Bool} {s : Span} {f : NamedExpr} {args : List NamedExpr}
    (h : Occurs q last (.app s f args)) : Occurs q false f
  | argument {last : Bool} {s : Span} {f e : NamedExpr} {args : List NamedExpr}
    (h : Occurs q last (.app s f args)) (he : e ∈ args) : Occurs q false e
  | function {last : Bool} {s : Span} {params : List Ident} {body : NamedExpr}
    (h : Occurs q last (.map s params () body)) : Occurs q true body
  | test {last : Bool} {s : Span} {t a b : NamedExpr} (h : Occurs q last (.cond s t a b)) :
    Occurs q false t
  | thenBranch {last : Bool} {s : Span} {t a b : NamedExpr} (h : Occurs q last (.cond s t a b)) :
    Occurs q last a
  | elseBranch {last : Bool} {s : Span} {t a b : NamedExpr} (h : Occurs q last (.cond s t a b)) :
    Occurs q last b
  | value {last : Bool} {s : Span} {kind : LetKind} {defs : List (Ident × NamedExpr)} {x : Ident}
    {e body : NamedExpr} (h : Occurs q last (.letIn s kind defs () body)) (he : (x, e) ∈ defs) :
    Occurs q false e
  | body {last : Bool} {s : Span} {kind : LetKind} {defs : List (Ident × NamedExpr)}
    {body : NamedExpr} (h : Occurs q last (.letIn s kind defs () body)) : Occurs q last body
  | component {last : Bool} {s : Span} {es es' : List NamedExpr} {e e' : NamedExpr}
    (h : Occurs q last (.block s (es ++ e :: e' :: es'))) : Occurs q false e
  | lastComponent {last : Bool} {s : Span} {es : List NamedExpr} {e : NamedExpr}
    (h : Occurs q last (.block s (es ++ [e]))) : Occurs q last e

mutual

/-- In an expression in a last position (or in another one) every call of something other than a
primitive by name is in a last position. -/
def CallsLast : Bool → NamedExpr → Prop
  | _, .int _ _ | _, .bool _ _ | _, .null _ | _, .var _ _ | _, .prim _ _ => True
  | _, .unary _ _ e => CallsLast false e
  | _, .binary _ _ l r => CallsLast false l ∧ CallsLast false r
  | last, .app _ f args => (f.isPrim ∨ last) ∧ CallsLast false f ∧ AllCallLast args
  | _, .map _ _ _ body => CallsLast true body
  | last, .cond _ t a b => CallsLast false t ∧ CallsLast last a ∧ CallsLast last b
  | last, .letIn _ _ defs _ body => DefsCallLast defs ∧ CallsLast last body
  | last, .block _ es => BlockCallsLast last es

def AllCallLast : List NamedExpr → Prop
  | [] => True
  | e :: es => CallsLast false e ∧ AllCallLast es

def DefsCallLast : List (Ident × NamedExpr) → Prop
  | [] => True
  | d :: ds => DefCallsLast d ∧ DefsCallLast ds

def DefCallsLast : Ident × NamedExpr → Prop
  | (_, e) => CallsLast false e

def BlockCallsLast : Bool → List NamedExpr → Prop
  | _, [] => True
  | last, [e] => CallsLast last e
  | last, e :: e' :: es => CallsLast false e ∧ BlockCallsLast last (e' :: es)

end

theorem allCallLast_iff (es : List NamedExpr) : AllCallLast es ↔ ∀ e ∈ es, CallsLast false e := by
  induction es with
  | nil => simp [AllCallLast]
  | cons e es ih => simp [AllCallLast, ih]

theorem DefsCallLast.mem {defs : List (Ident × NamedExpr)} (h : DefsCallLast defs) {x : Ident}
    {e : NamedExpr} (he : (x, e) ∈ defs) : CallsLast false e := by
  induction defs with
  | nil => cases he
  | cons d ds ih =>
    obtain ⟨y, e'⟩ := d
    rcases List.mem_cons.mp he with heq | hmem
    · cases heq
      exact h.1
    · exact ih h.2 hmem

theorem BlockCallsLast.of_append {last : Bool} {es es' : List NamedExpr} (hne : es' ≠ [])
    (h : BlockCallsLast last (es ++ es')) : BlockCallsLast last es' := by
  induction es with
  | nil => exact h
  | cons e es ih =>
    obtain ⟨e', rest, heq⟩ := List.exists_cons_of_ne_nil (l := es ++ es') (by simp [hne])
    rw [List.cons_append, heq] at h
    rw [heq] at ih
    exact ih h.2

theorem AllCallLast.block : {es : List NamedExpr} → AllCallLast es → BlockCallsLast false es
  | [], _ => trivial
  | [_], h => h.1
  | _ :: _ :: _, h => ⟨h.1, block h.2⟩

theorem callsLast_of_isPrim {f : NamedExpr} (hf : f.isPrim) : CallsLast false f := by
  cases f <;> trivial

/-- What holds of a whole program holds of everything in it, by its position. -/
theorem Occurs.callsLast {q e : NamedExpr} {last : Bool} (h : Occurs q last e)
    (hq : CallsLast true q) : CallsLast last e := by
  induction h with
  | root => exact hq
  | operand _ ih => exact ih
  | left _ ih => exact ih.1
  | right _ ih => exact ih.2
  | operator _ ih => exact ih.2.1
  | argument _ he ih => exact (allCallLast_iff _).mp ih.2.2 _ he
  | function _ ih => exact ih
  | test _ ih => exact ih.1
  | thenBranch _ ih => exact ih.2.1
  | elseBranch _ ih => exact ih.2.2
  | value _ he ih => exact DefsCallLast.mem ih.1 he
  | body _ ih => exact ih.2
  | component _ ih => exact (BlockCallsLast.of_append (by simp) ih).1
  | lastComponent _ ih => exact BlockCallsLast.of_append (by simp) ih

mutual

/-- An expression in another than a last position is simple. -/
theorem isSimple_of_callsLast : (e : NamedExpr) → CallsLast false e → e.isSimple
  | .int _ _, _ | .bool _ _, _ | .null _, _ | .var _ _, _ | .prim _ _, _ | .map _ _ _ _, _ => rfl
  | .unary _ _ e, h => isSimple_of_callsLast e h
  | .binary _ _ l r, h => by
    simp [isSimple, isSimple_of_callsLast l h.1, isSimple_of_callsLast r h.2]
  | .app _ f args, h => by
    simp [isSimple, allSimple_of_allCallLast args h.2.2, h.1.resolve_right nofun]
  | .cond _ t a b, h => by
    simp [isSimple, isSimple_of_callsLast t h.1, isSimple_of_callsLast a h.2.1,
      isSimple_of_callsLast b h.2.2]
  | .letIn _ _ defs _ body, h => by
    simp [isSimple, defsSimple_of_defsCallLast defs h.1, isSimple_of_callsLast body h.2]
  | .block _ es, h => allSimple_of_blockCallsLast es h

theorem allSimple_of_allCallLast : (es : List NamedExpr) → AllCallLast es → allSimple es
  | [], _ => rfl
  | e :: es, h => by
    simp [allSimple, isSimple_of_callsLast e h.1, allSimple_of_allCallLast es h.2]

theorem defsSimple_of_defsCallLast : (ds : List (Ident × NamedExpr)) → DefsCallLast ds →
    defsSimple ds
  | [], _ => rfl
  | d :: ds, h => by
    simp [defsSimple, defSimple_of_defCallsLast d h.1, defsSimple_of_defsCallLast ds h.2]

theorem defSimple_of_defCallsLast : (d : Ident × NamedExpr) → DefCallsLast d → defSimple d
  | (_, e), h => isSimple_of_callsLast e h

theorem allSimple_of_blockCallsLast : (es : List NamedExpr) → BlockCallsLast false es →
    allSimple es
  | [], _ => rfl
  | [e], h => by simp [allSimple, isSimple_of_callsLast e h]
  | e :: e' :: es, h => by
    have hrest := allSimple_of_blockCallsLast (e' :: es) h.2
    simp only [allSimple, isSimple_of_callsLast e h.1, Bool.true_and] at hrest ⊢
    exact hrest

end

end Expr

namespace Conversion

open Mapling.Expr

/-! ## Along the rules -/

theorem callsLast_mkVars (xs : List Ident) : AllCallLast (xs.map mkVar) := by
  rw [allCallLast_iff]
  intro e he
  obtain ⟨x, _, rfl⟩ := List.mem_map.mp he
  trivial

theorem callsLast_primFunction (n : Nat) (p : Prim) : CallsLast false (primFunction n p) := by
  have hcall : CallsLast false (mkApp (.prim .synthetic p)
    ((namesAfter n p.parameters).map mkVar)) :=
    ⟨.inl rfl, trivial, callsLast_mkVars _⟩
  refine ⟨.inr rfl, trivial, ?_, trivial⟩
  unfold primResult
  split
  · exact ⟨hcall, trivial⟩
  · exact hcall

theorem Shares.callsLast {k k' : NamedExpr} {wrap : NamedExpr → NamedExpr} {n n' : Nat}
    (h : Shares k n k' wrap n') (hk : CallsLast false k) :
    CallsLast false k' ∧ ∀ c, CallsLast true c → CallsLast true (wrap c) := by
  cases h with
  | isVar s x => exact ⟨trivial, fun _ hc => hc⟩
  | named _ => exact ⟨trivial, fun _ hc => ⟨⟨hk, trivial⟩, hc⟩⟩

mutual

/-- In a converted expression every call of a function is in a last position. -/
theorem Converts.callsLast {k e c : NamedExpr} {n n' : Nat} (h : Converts k e n c n')
    (hk : CallsLast false k) : CallsLast true c := by
  match h with
  | .simple hs hr => exact ⟨.inr rfl, hk, hr.callsLast hs, trivial⟩
  | .operands _ _ hc => exact hc.callsLast hk
  | .and _ hc | .or _ hc => exact hc.callsLast hk
  | .block _ hc => exact hc.callsLast hk
  | .call _ hs hr hrs =>
    simp only [allSimple, Bool.and_eq_true] at hs
    refine ⟨.inr rfl, hr.callsLast hs.1, (allCallLast_iff _).mpr fun e he => ?_⟩
    rcases List.mem_append.mp he with he | he
    · exact (allCallLast_iff _).mp (hrs.callsLast hs.2) e he
    · rwa [List.mem_singleton.mp he]
  | .cond ht _ hr hshare ha hb hc =>
    subst hc
    obtain ⟨hk', hwrap⟩ := hshare.callsLast hk
    exact hwrap _ ⟨hr.callsLast ht, ha.callsLast hk', hb.callsLast hk'⟩
  | .letIn hd _ hr hshare hb hc =>
    subst hc
    obtain ⟨hk', hwrap⟩ := hshare.callsLast hk
    exact hwrap _ ⟨hr.callsLast hd, hb.callsLast hk'⟩
  | .letOne _ hshare hb he hc =>
    subst hc
    obtain ⟨hk', hwrap⟩ := hshare.callsLast hk
    exact hwrap _ (he.callsLast (hb.callsLast hk'))

theorem Chains.callsLast {k body c : NamedExpr} {ts : List (Ident × NamedExpr)} {n n' : Nat}
    (h : Chains k ts body n c n') (hk : CallsLast false k) : CallsLast true c := by
  match h with
  | .nil hc => exact hc.callsLast hk
  | .simple hs hr hc => exact ⟨⟨hr.callsLast hs, trivial⟩, hc.callsLast hk⟩
  | .call _ hr hc => exact hc.callsLast (hr.callsLast hk)

theorem ConvertsAll.callsLast {k c : NamedExpr} {es : List NamedExpr} {n n' : Nat}
    (h : ConvertsAll k es n c n') (hk : CallsLast false k) : CallsLast true c := by
  match h with
  | .nil hc | .last hc => exact hc.callsLast hk
  | .simple hs hr hc => exact ⟨hr.callsLast hs, hc.callsLast hk⟩
  | .call _ hr hc => exact hc.callsLast ⟨trivial, hr.callsLast hk⟩

/-- In a reshaped expression functions are called in bodies only. -/
theorem Reshapes.callsLast {e r : NamedExpr} {n n' : Nat} (h : Reshapes e n r n')
    (hs : e.isSimple) : CallsLast false r := by
  match h with
  | .int _ _ _ | .bool _ _ _ | .null _ _ | .var _ _ _ => trivial
  | .prim _ p n => exact callsLast_primFunction n p
  | .map hb => exact hb.callsLast trivial
  | .arity _ hr =>
    simp only [isSimple, Bool.and_eq_true] at hs
    exact ⟨⟨.inl hs.1, callsLast_of_isPrim hs.1, hr.callsLast hs.2⟩, trivial⟩
  | .app _ hr =>
    simp only [isSimple, Bool.and_eq_true] at hs
    exact ⟨.inl hs.1, callsLast_of_isPrim hs.1, hr.callsLast hs.2⟩
  | .unary hr => exact hr.callsLast hs
  | .binary hl hr =>
    simp only [isSimple, Bool.and_eq_true] at hs
    exact ⟨hl.callsLast hs.1, hr.callsLast hs.2⟩
  | .cond ht ha hb =>
    simp only [isSimple, Bool.and_eq_true] at hs
    exact ⟨ht.callsLast hs.1.1, ha.callsLast hs.1.2, hb.callsLast hs.2⟩
  | .letIn hd hb =>
    simp only [isSimple, Bool.and_eq_true] at hs
    exact ⟨hd.callsLast hs.1, hb.callsLast hs.2⟩
  | .block hr => exact (hr.callsLast hs).block

theorem ReshapesAll.callsLast {es es' : List NamedExpr} {n n' : Nat} (h : ReshapesAll es n es' n')
    (hs : allSimple es) : AllCallLast es' := by
  match h with
  | .nil _ => trivial
  | .cons hr hrs =>
    simp only [allSimple, Bool.and_eq_true] at hs
    exact ⟨hr.callsLast hs.1, hrs.callsLast hs.2⟩

theorem ReshapesDefs.callsLast {ds ds' : List (Ident × NamedExpr)} {n n' : Nat}
    (h : ReshapesDefs ds n ds' n') (hs : defsSimple ds) : DefsCallLast ds' := by
  match h with
  | .nil _ => trivial
  | .cons hr hrs =>
    simp only [defsSimple, defSimple, Bool.and_eq_true] at hs
    exact ⟨hr.callsLast hs.1, hrs.callsLast hs.2⟩

end

end Conversion

open Mapling.Expr in
/-- Every call in a converted program, other than that of a primitive by name, is the last thing
its function or the program does; so what is not in a last position calls nothing outside of
functions. -/
theorem last_of_occurs_toCps (p q : NamedExpr) (h : p.toCps = .ok q) :
    (∀ last s f args, Occurs q last (.app s f args) → ¬ f.isPrim → last = true) ∧
      ∀ e, Occurs q false e → e.isSimple := by
  obtain ⟨n, hconv⟩ := Conversion.converts_of_toCps h
  have hq : CallsLast true q := hconv.callsLast trivial
  refine ⟨fun last s f args hocc hf => ?_, fun e hocc => ?_⟩
  · exact (hocc.callsLast hq).1.resolve_left hf
  · exact isSimple_of_callsLast e (hocc.callsLast hq)

open Mapling.Expr in
/-- The call `f(g(x))`. -/
def nestedCall : NamedExpr :=
  mkApp (mkVar (.synthetic "f")) [mkApp (mkVar (.synthetic "g")) [mkVar (.synthetic "x")]]

open Mapling.Expr in
/-- The call of `f` on the value of `g(x)`. -/
def outerCall : NamedExpr :=
  mkApp (mkVar (.synthetic "f")) [mkVar (.synthetic ":1"), identityMap]

open Mapling.Expr in
/-- `g(x, map :1 to f(:1, map :x to :x))` -/
def nestedCallConverted : NamedExpr :=
  mkApp (mkVar (.synthetic "g")) [mkVar (.synthetic "x"), mkMap [.synthetic ":1"] outerCall]

open Mapling.Expr in
theorem last_of_occurs_toCps_nestedCall :
    nestedCall.toCps = .ok nestedCallConverted ∧
      (∃ last, Occurs nestedCallConverted last outerCall ∧ last = true) ∧
      Occurs nestedCallConverted false identityMap ∧ identityMap.isSimple := by
  have h : nestedCall.toCps = .ok nestedCallConverted := by cbv
  have houter : Occurs nestedCallConverted true outerCall :=
    .function (.argument .root (List.mem_cons_of_mem _ List.mem_cons_self))
  have hidentity : Occurs nestedCallConverted false identityMap :=
    .argument houter (List.mem_cons_of_mem _ List.mem_cons_self)
  obtain ⟨hlast, hsimple⟩ := last_of_occurs_toCps _ _ h
  exact ⟨h, ⟨true, houter, hlast _ _ _ _ houter (by rintro ⟨⟩)⟩, hidentity, hsimple _ hidentity⟩

end Mapling
