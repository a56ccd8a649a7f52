import Mapling.Proofs.Continuation.Rules
import Mapling.Proofs.Scope.Names
import Mapling.Proofs.Syntax.RoundTrip

/-! # Names that are made

A conversion numbers the names that it makes. A name is known when none of the names that are still
to be made is that name (`Conversion.Known`), and an expression is ready for conversion when it uses
known names and declares only names that are not made (`Expr.Ready`). A program that was read from a
text is ready, since no name in a text begins with a colon, and what a conversion comes to convert
stays ready. -/

namespace Mapling

namespace Conversion

open Mapling.Expr

/-! ## Made names -/

def IsMade (x : String) : Prop := x.toList.head? = some ':'

/-- The name is none of those that are made after the first `n`. -/
def Known (n : Nat) (x : String) : Prop := ∀ i, n < i → x ≠ (freshName i).name

theorem isMade_freshName (n : Nat) : IsMade (freshName n).name := by
  simp [IsMade, freshName, Ident.synthetic, String.toList_append]

theorem freshName_injective {i j : Nat} (h : (freshName i).name = (freshName j).name) : i = j := by
  have hdigits : Nat.toDigits 10 i = Nat.toDigits 10 j := by
    simpa [freshName, Ident.synthetic, String.ext_iff, String.toList_append] using h
  calc i = Nat.ofDigitChars 10 (Nat.toDigits 10 i) 0 :=
        (Nat.ofDigitChars_toDigits (by decide) (by decide)).symm
    _ = Nat.ofDigitChars 10 (Nat.toDigits 10 j) 0 := by rw [hdigits]
    _ = j := Nat.ofDigitChars_toDigits (by decide) (by decide)

variable {x : String} {n : Nat}

theorem Known.mono {n' : Nat} (h : Known n x) (hn : n ≤ n') : Known n' x :=
  fun i hi => h i (lt_of_le_of_lt hn hi)

theorem Known.ne (h : Known n x) : x ≠ (freshName (n + 1)).name :=
  h _ (Nat.lt_succ_self n)

theorem known_freshName {i : Nat} (h : i ≤ n) : Known n (freshName i).name :=
  fun j hj heq => absurd (freshName_injective heq) (by omega)

theorem known_of_not_isMade (h : ¬ IsMade x) (n : Nat) : Known n x :=
  fun i _ heq => h (heq ▸ isMade_freshName i)

theorem not_isMade_of_isName (h : IsName x) : ¬ IsMade x := by
  obtain ⟨⟨c, cs, hx, hc, -⟩, -⟩ := h
  rw [IsMade, hx]
  rintro ⟨⟩
  exact absurd hc (by decide)

theorem namesAfter_succ (n a : Nat) :
    namesAfter n (a + 1) = namesAfter n a ++ [freshName (n + a + 1)] := by
  induction a generalizing n with
  | zero => rfl
  | succ a ih =>
    rw [namesAfter, ih (n + 1), namesAfter, List.cons_append,
      show n + 1 + a + 1 = n + (a + 1) + 1 by omega]

/-! ## What is ready to be converted -/

end Conversion

namespace Expr

open Conversion

mutual

/-- Every name that the expression uses is known when `n` names have been made, and the names that
it declares are not made. -/
@[simp] def Ready (n : Nat) : NamedExpr → Prop
  | .int _ _ | .bool _ _ | .null _ | .prim _ _ => True
  | .var _ x => Known n x.name
  | .unary _ _ e => e.Ready n
  | .binary _ _ l r => l.Ready n ∧ r.Ready n
  | .app _ f args => f.Ready n ∧ AllReady n args
  | .map _ params _ body => (∀ x ∈ params, ¬ IsMade x.name) ∧ body.Ready n
  | .cond _ t a b => t.Ready n ∧ a.Ready n ∧ b.Ready n
  | .letIn _ _ defs _ body => DefsReady n defs ∧ body.Ready n
  | .block _ es => AllReady n es

@[simp] def AllReady (n : Nat) : List NamedExpr → Prop
  | [] => True
  | e :: es => e.Ready n ∧ AllReady n es

@[simp] def DefsReady (n : Nat) : List (Ident × NamedExpr) → Prop
  | [] => True
  | d :: ds => DefReady n d ∧ DefsReady n ds

@[simp] def DefReady (n : Nat) : Ident × NamedExpr → Prop
  | (x, e) => ¬ IsMade x.name ∧ e.Ready n

end

section

variable {n n' : Nat}

theorem allReady_iff (es : List NamedExpr) : AllReady n es ↔ ∀ e ∈ es, e.Ready n := by
  induction es with
  | nil => simp
  | cons e es ih => simp [ih]

theorem defsReady_iff (ds : List (Ident × NamedExpr)) :
    DefsReady n ds ↔ (∀ x ∈ defNames ds, ¬ IsMade x) ∧ AllReady n (defValues ds) := by
  induction ds with
  | nil => simp [defNames, defValues]
  | cons d ds ih =>
    obtain ⟨y, e⟩ := d
    simp only [DefsReady, DefReady, ih, defNames, defValues, List.map_cons, List.forall_mem_cons,
      AllReady]
    grind

/-- The free names are known, and the names that are declared are not made. -/
def OnlyKnown (n : Nat) (declarations : List (List String)) (free : List String) : Prop :=
  (∀ x ∈ free, Known n x) ∧ ∀ names ∈ declarations, ∀ x ∈ names, ¬ IsMade x

mutual

/-- A name that is not made is known where it is used, so only the free names matter. -/
theorem ready_iff : (e : NamedExpr) → (e.Ready n ↔ OnlyKnown n e.declarations e.freeNames)
  | .int _ _ | .bool _ _ | .null _ | .prim _ _ | .var _ _ => by simp [OnlyKnown]
  | .unary _ _ e => ready_iff e
  | .binary _ _ l r => by
    simp only [Ready, ready_iff l, ready_iff r, OnlyKnown, declarations, freeNames,
      List.forall_mem_append]
    tauto
  | .app _ f args => by
    simp only [Ready, ready_iff f, allReady_iff_onlyKnown args, OnlyKnown, declarations, freeNames,
      List.forall_mem_append]
    tauto
  | .map _ params _ body => by
    have hknown := fun x h => @known_of_not_isMade x h n
    simp only [Ready, ready_iff body, OnlyKnown, declarations, freeNames, List.forall_mem_cons,
      List.forall_mem_map, List.mem_filter, decide_eq_true_eq]
    grind
  | .cond _ t a b => by
    simp only [Ready, ready_iff t, ready_iff a, ready_iff b, OnlyKnown, declarations, freeNames,
      List.forall_mem_append]
    tauto
  | .letIn _ .plain defs _ body | .letIn _ .recursive defs _ body => by
    have hknown := fun x h => @known_of_not_isMade x h n
    simp only [Ready, ready_iff body, defsReady_iff_onlyKnown defs, OnlyKnown, declarations,
      freeNames, List.forall_mem_cons, List.mem_append, List.mem_filter, decide_eq_true_eq]
    grind
  | .block _ es => allReady_iff_onlyKnown es

theorem allReady_iff_onlyKnown : (es : List NamedExpr) →
    (AllReady n es ↔ OnlyKnown n (listDeclarations es) (listFreeNames es))
  | [] => by simp [OnlyKnown]
  | e :: es => by
    simp only [AllReady, ready_iff e, allReady_iff_onlyKnown es, OnlyKnown, listDeclarations,
      listFreeNames, List.forall_mem_append]
    tauto

theorem defsReady_iff_onlyKnown : (ds : List (Ident × NamedExpr)) → (DefsReady n ds ↔
    (∀ x ∈ defNames ds, ¬ IsMade x) ∧ OnlyKnown n (defsDeclarations ds) (defsFreeNames ds))
  | [] => by simp [OnlyKnown, defNames]
  | d :: ds => by
    simp only [DefsReady, defReady_iff d, defsReady_iff_onlyKnown ds, OnlyKnown, defNames,
      defsDeclarations, defsFreeNames, List.map_cons, List.forall_mem_cons, List.forall_mem_append]
    tauto

theorem defReady_iff : (d : Ident × NamedExpr) →
    (DefReady n d ↔ ¬ IsMade d.1.name ∧ OnlyKnown n (defDeclarations d) (defFreeNames d))
  | (_, e) => and_congr_right' (ready_iff e)

end

theorem OnlyKnown.mono {declarations : List (List String)} {free : List String}
    (h : OnlyKnown n declarations free) (hn : n ≤ n') : OnlyKnown n' declarations free :=
  ⟨fun x hx => (h.1 x hx).mono hn, h.2⟩

theorem Ready.mono (hn : n ≤ n') (e : NamedExpr) (h : e.Ready n) : e.Ready n' :=
  (ready_iff e).mpr (((ready_iff e).mp h).mono hn)

theorem AllReady.mono (hn : n ≤ n') (es : List NamedExpr) (h : AllReady n es) : AllReady n' es :=
  (allReady_iff_onlyKnown es).mpr (((allReady_iff_onlyKnown es).mp h).mono hn)

theorem DefsReady.mono (hn : n ≤ n') (ds : List (Ident × NamedExpr)) (h : DefsReady n ds) :
    DefsReady n' ds :=
  (defsReady_iff_onlyKnown ds).mpr (((defsReady_iff_onlyKnown ds).mp h).imp_right (·.mono hn))

theorem Ready.known (e : NamedExpr) (h : e.Ready n) : ∀ x ∈ e.freeNames, Known n x :=
  ((ready_iff e).mp h).1

theorem AllReady.known (es : List NamedExpr) (h : AllReady n es) :
    ∀ x ∈ listFreeNames es, Known n x :=
  ((allReady_iff_onlyKnown es).mp h).1

theorem Ready.not_isMade (e : NamedExpr) (h : e.Ready n) :
    ∀ names ∈ e.declarations, ∀ x ∈ names, ¬ IsMade x :=
  ((ready_iff e).mp h).2

mutual

/-- What can be written is ready. -/
theorem Writable.ready : (e : NamedExpr) → e.Writable → e.Ready n
  | .int _ _, _ | .bool _ _, _ | .null _, _ | .prim _ _, _ => trivial
  | .var _ _, h => known_of_not_isMade (not_isMade_of_isName h) n
  | .unary _ _ e, h => Writable.ready e h
  | .binary _ _ l r, h => ⟨Writable.ready l h.1, Writable.ready r h.2⟩
  | .app _ f args, h => ⟨Writable.ready f h.1, AllWritable.ready args h.2⟩
  | .map _ _ _ body, h => ⟨fun x hx => not_isMade_of_isName (h.1 x hx), Writable.ready body h.2⟩
  | .cond _ t a b, h => ⟨Writable.ready t h.1, Writable.ready a h.2.1, Writable.ready b h.2.2⟩
  | .letIn _ _ defs _ body, h => ⟨DefsWritable.ready defs h.2.1, Writable.ready body h.2.2⟩
  | .block _ es, h => AllWritable.ready es h.2

theorem AllWritable.ready : (es : List NamedExpr) → AllWritable es → AllReady n es
  | [], _ => trivial
  | e :: es, h => ⟨Writable.ready e h.1, AllWritable.ready es h.2⟩

theorem DefsWritable.ready : (ds : List (Ident × NamedExpr)) → DefsWritable ds → DefsReady n ds
  | [], _ => trivial
  | d :: ds, h => ⟨DefWritable.ready d h.1, DefsWritable.ready ds h.2⟩

theorem DefWritable.ready : (d : Ident × NamedExpr) → DefWritable d → DefReady n d
  | (_, e), h => ⟨not_isMade_of_isName h.1, Writable.ready e h.2⟩

end

end

end Expr

namespace Conversion

open Mapling.Expr

/-! ## Chains of definitions -/

/-- The expression `let t₁ := e₁; in … let tₙ := eₙ; in body`. -/
@[simp] def chained : List (Ident × NamedExpr) → NamedExpr → NamedExpr
  | [], body => body
  | t :: ts, body => mkLet [t] (chained ts body)

variable {es : List NamedExpr} {n : Nat}

/-- What a made name stands for is one of the expressions, and the name is new. -/
theorem known_temporaries {t : Ident × NamedExpr} (ht : t ∈ temporaries n es) :
    t.2 ∈ es ∧ ∃ i, n < i ∧
      i ≤ n + (temporaries n es).length ∧ t.1 = freshName i := by
  induction es generalizing n with
  | nil => cases ht
  | cons e es ih =>
    rw [temporaries] at ht ⊢
    split at ht
    · rename_i he
      rw [if_pos he]
      exact ⟨.tail _ (ih ht).1, (ih ht).2⟩
    · rename_i he
      rw [if_neg he]
      rcases List.mem_cons.mp ht with rfl | ht
      · exact ⟨.head _, n + 1, by omega, by simp, rfl⟩
      · obtain ⟨hmem, i, hlt, hle, hname⟩ := ih ht
        refine ⟨.tail _ hmem, i, by omega, ?_, hname⟩
        rw [List.length_cons]
        omega

/-- Stand-ins are ready once their temporaries are made. -/
theorem allReady_standIns (hes : AllReady n es) :
    AllReady (n + (temporaries n es).length) (standIns n es) := by
  induction es generalizing n with
  | nil => trivial
  | cons e es ih =>
    by_cases he : e.isAtomic
    · have hrest := ih hes.2
      simp only [standIns, temporaries, standIn, countAfter, he, if_true]
      exact ⟨hes.1.mono (Nat.le_add_right _ _), hrest⟩
    · have hrest := ih (n := n + 1) (hes.2.mono (Nat.le_succ n))
      simp only [standIns, temporaries, standIn, countAfter, he, if_false, List.length_cons,
        Bool.false_eq_true]
      rw [show n + ((temporaries (n + 1) es).length + 1) = n + 1 + (temporaries (n + 1) es).length
        by omega]
      exact ⟨known_freshName (Nat.le_add_right _ _), hrest⟩

theorem ready_temporaries (hes : AllReady n es) :
    ∀ t ∈ temporaries n es, t.2.Ready (n + (temporaries n es).length) :=
  fun _ ht => Ready.mono (Nat.le_add_right _ _) _
    ((allReady_iff es).mp hes _ (known_temporaries ht).1)

/-! ## Forms with stand-ins -/

theorem defNames_rebind {defs : List (Ident × NamedExpr)} (hlen : es.length = defs.length) :
    Expr.defNames (rebind defs es) = Expr.defNames defs := by
  have hfst : (rebind defs es).map Prod.fst = defs.map Prod.fst :=
    List.map_fst_zip (by simp [hlen])
  simpa [Expr.defNames, Function.comp_def] using congrArg (List.map Ident.name) hfst

theorem defValues_rebind {defs : List (Ident × NamedExpr)} (hlen : es.length = defs.length) :
    defValues (rebind defs es) = es :=
  List.map_snd_zip (by simp [hlen])

/-- A form with stand-ins for its operands is ready once their temporaries are made. -/
theorem Replaces.ready {e e' : NamedExpr} (h : Replaces e es e' (standIns n es)) (he : e.Ready n) :
    AllReady n es ∧ e'.Ready (n + (temporaries n es).length) := by
  have hmono : ∀ {e : NamedExpr}, e.Ready n → e.Ready (n + (temporaries n es).length) :=
    Ready.mono (Nat.le_add_right _ _) _
  have hstandIns : AllReady n es → AllReady (n + (temporaries n es).length) (standIns n es) :=
    allReady_standIns
  generalize standIns n es = es', n + (temporaries n es).length = n' at h hmono hstandIns ⊢
  cases h with
  | primCall _ => exact ⟨he.2, hmono he.1, hstandIns he.2⟩
  | call _ => exact ⟨he, hstandIns he⟩
  | unary => exact ⟨⟨he, trivial⟩, (hstandIns ⟨he, trivial⟩).1⟩
  | binary _ _ =>
    have hboth := hstandIns ⟨he.1, he.2, trivial⟩
    exact ⟨⟨he.1, he.2, trivial⟩, hboth.1, hboth.2.1⟩
  | test => exact ⟨⟨he.1, trivial⟩, (hstandIns ⟨he.1, trivial⟩).1, hmono he.2.1, hmono he.2.2⟩
  | values hlen =>
    have hdefs := (defsReady_iff _).mp he.1
    refine ⟨hdefs.2, (defsReady_iff _).mpr ?_, hmono he.2⟩
    rw [defNames_rebind hlen, defValues_rebind hlen]
    exact ⟨hdefs.1, hstandIns hdefs.2⟩

/-! ## Names are only added -/

theorem Shares.le {k k' : NamedExpr} {wrap : NamedExpr → NamedExpr} {n' : Nat}
    (h : Shares k n k' wrap n') : n ≤ n' := by
  cases h with
  | isVar s x => exact le_rfl
  | named _ => exact Nat.le_succ n

mutual

theorem Converts.le {k e c : NamedExpr} {n n' : Nat} (h : Converts k e n c n') : n ≤ n' := by
  match h with
  | .simple _ hr => exact hr.le
  | .operands _ _ hc => exact le_trans (Nat.le_add_right _ _) hc.le
  | .and _ hc | .or _ hc => exact hc.le
  | .block _ hc => exact hc.le
  | .call _ _ hr hrs => exact le_trans hr.le hrs.le
  | .cond _ _ hr hk ha hb _ => exact le_trans hr.le (le_trans hk.le (le_trans ha.le hb.le))
  | .letIn _ _ hr hk hb _ => exact le_trans hr.le (le_trans hk.le hb.le)
  | .letOne _ hk hb he _ => exact le_trans hk.le (le_trans hb.le he.le)

theorem Chains.le {k body c : NamedExpr} {ts : List (Ident × NamedExpr)} {n n' : Nat}
    (h : Chains k ts body n c n') : n ≤ n' := by
  match h with
  | .nil hc => exact hc.le
  | .simple _ hr hc => exact le_trans hr.le hc.le
  | .call _ hr hc => exact le_trans hr.le hc.le

theorem ConvertsAll.le {k c : NamedExpr} {es : List NamedExpr} {n n' : Nat}
    (h : ConvertsAll k es n c n') : n ≤ n' := by
  match h with
  | .nil hc | .last hc => exact hc.le
  | .simple _ hr hc => exact le_trans hr.le hc.le
  | .call _ hr hc => exact le_trans (Nat.le_succ _) (le_trans hr.le hc.le)

theorem Reshapes.le {e r : NamedExpr} {n n' : Nat} (h : Reshapes e n r n') : n ≤ n' := by
  match h with
  | .int _ _ _ | .bool _ _ _ | .null _ _ | .var _ _ _ => exact le_rfl
  | .prim _ _ _ => omega
  | .map hb => exact le_trans (Nat.le_succ _) hb.le
  | .arity _ hr | .app _ hr | .block hr => exact hr.le
  | .unary hr => exact hr.le
  | .binary hl hr => exact le_trans hl.le hr.le
  | .cond ht ha hb => exact le_trans ht.le (le_trans ha.le hb.le)
  | .letIn hd hb => exact le_trans hd.le hb.le

theorem ReshapesAll.le {es es' : List NamedExpr} {n n' : Nat} (h : ReshapesAll es n es' n') :
    n ≤ n' := by
  match h with
  | .nil _ => exact le_rfl
  | .cons hr hrs => exact le_trans hr.le hrs.le

theorem ReshapesDefs.le {ds ds' : List (Ident × NamedExpr)} {n n' : Nat}
    (h : ReshapesDefs ds n ds' n') : n ≤ n' := by
  match h with
  | .nil _ => exact le_rfl
  | .cons hr hrs => exact le_trans hr.le hrs.le

end

theorem ReshapesDefs.defNames {ds ds' : List (Ident × NamedExpr)} {n' : Nat}
    (h : ReshapesDefs ds n ds' n') : defNames ds' = defNames ds := by
  induction ds generalizing n ds' with
  | nil => cases h; rfl
  | cons d ds ih =>
    cases h with
    | cons _ hrs => simpa [Expr.defNames] using ih hrs

end Conversion

end Mapling
