import Mapling.Proofs.Continuation.FreshNames

/-! # Conversion captures no name

A conversion moves continuations under the binders of the program and under definitions of its own.
What is free in the result is what is free in the continuation and in the expression
(`Converts.mem_freeNames`). Two facts make this so. A continuation that is moved under a binder of
the program is a variable with a made name, which is what sharing it is for; and a temporary is a
name that was made after everything that is moved under it. -/

namespace Mapling

variable {es : List NamedExpr} {R : String → Prop} {k' body e' : NamedExpr}
  {wrap : NamedExpr → NamedExpr} {s : Span}

namespace Conversion

open Mapling.Expr

/-! ## Chains of definitions -/

variable {n n' : Nat} {k b e : NamedExpr} {x : String} {y : Ident}

/-- What is free in a form with stand-ins inside of their definitions is what is free in the form
with the operands themselves; `R` is what else is free in the form. -/
theorem mem_freeNames_chained {form : NamedExpr} (hes : ∀ x ∈ listFreeNames es, Known n x)
    (hR : ∀ x, R x → Known n x)
    (hform : ∀ x, x ∈ form.freeNames ↔ x ∈ listFreeNames (standIns n es) ∨ R x) (x : String) :
    x ∈ (chained (temporaries n es) form).freeNames ↔ x ∈ listFreeNames es ∨ R x := by
  induction es generalizing n R with
  | nil => exact hform x
  | cons e es ih =>
    simp only [listFreeNames, List.mem_append] at hes ⊢
    by_cases he : e.isAtomic
    · simp only [standIns, standIn, temporaries, countAfter, he, if_true, listFreeNames,
        List.mem_append] at hform ⊢
      rw [ih (R := fun x => x ∈ e.freeNames ∨ R x) (fun y hy => hes y (.inr hy))
        (fun y hy => hy.elim (fun hy => hes y (.inl hy)) (hR y)) (fun y => by rw [hform]; tauto)]
      grind
    · simp only [standIns, standIn, temporaries, countAfter, he, if_false, listFreeNames,
        List.mem_append, Bool.false_eq_true, mkVar, freeNames, List.mem_singleton] at hform ⊢
      have hrest := ih (n := n + 1) (R := fun x => x = (freshName (n + 1)).name ∨ R x)
        (fun y hy => (hes y (.inr hy)).mono (Nat.le_succ n))
        (fun y hy => hy.elim (fun hy => hy ▸ known_freshName le_rfl)
          fun hy => (hR y hy).mono (Nat.le_succ n))
        (fun y => by rw [hform]; tauto)
      simp only [chained, mkLet, freeNames, defsFreeNames, defFreeNames, List.append_nil,
        List.mem_append, List.mem_filter, hrest, defNames, List.map_cons, List.map_nil,
        List.mem_singleton, decide_eq_true_eq]
      have hfresh : x ∈ listFreeNames es ∨ R x → x ≠ (freshName (n + 1)).name := fun hx =>
        (hx.elim (fun hx => hes x (.inr hx)) (hR x)).ne
      grind

/-! ## Free names -/

/-- A continuation that may be moved under what is made after the first `n` names and, if it is a
variable, under the binders of a program. -/
structure Passable (n : Nat) (k : NamedExpr) : Prop where
  known : ∀ x ∈ k.freeNames, Known n x
  isMade : ∀ s x, k = .var s x → IsMade x.name

theorem Passable.mono (h : Passable n k) (hn : n ≤ n') : Passable n' k :=
  ⟨fun x hx => (h.known x hx).mono hn, h.isMade⟩

theorem Passable.not_mem (h : Passable n k) : ∀ t ∈ temporaries n es, t.1.name ∉ k.freeNames := by
  intro t ht hmem
  obtain ⟨-, i, hlt, -, hname⟩ := known_temporaries ht
  exact h.known _ hmem i hlt (by rw [hname])

theorem passable_freshName (n : Nat) : Passable n (mkVar (freshName n)) := by
  refine ⟨fun x hx => ?_, ?_⟩
  · rw [List.mem_singleton.mp hx]
    exact known_freshName le_rfl
  · rintro s x ⟨⟩
    exact isMade_freshName n

theorem Shares.passable (h : Shares k n k' wrap n') (hk : Passable n k) :
    Passable n' k' ∧ ∀ x ∈ k'.freeNames, IsMade x := by
  cases h with
  | isVar s x => exact ⟨hk, fun y hy => List.mem_singleton.mp hy ▸ hk.isMade s x rfl⟩
  | named _ =>
    exact ⟨passable_freshName _, fun y hy => List.mem_singleton.mp hy ▸ isMade_freshName _⟩

/-- Nothing but the continuation itself is bound by sharing it. -/
theorem Shares.mem_freeNames {c : NamedExpr} (h : Shares k n k' wrap n') (hR : ∀ x, R x → Known n x)
    (hc : ∀ x, x ∈ c.freeNames ↔ x ∈ k'.freeNames ∨ R x) (x : String) :
    x ∈ (wrap c).freeNames ↔ x ∈ k.freeNames ∨ R x := by
  cases h with
  | isVar s y => exact hc x
  | named _ =>
    have hfresh : R x → x ≠ (freshName (n + 1)).name := fun hx => (hR x hx).ne
    simp only [mkLet, freeNames, defsFreeNames, defFreeNames, List.append_nil, List.mem_append,
      List.mem_filter, hc, mkVar, List.mem_singleton, defNames, List.map_cons, List.map_nil,
      decide_eq_true_eq]
    grind

theorem known_chained {ts : List (Ident × NamedExpr)} (hts : ∀ t ∈ ts, t.2.Ready n)
    (hbody : body.Ready n) : ∀ x ∈ (chained ts body).freeNames, Known n x := by
  induction ts with
  | nil => exact Ready.known body hbody
  | cons t ts ih =>
    obtain ⟨y, e⟩ := t
    intro x hx
    simp only [chained, mkLet, freeNames, defsFreeNames, List.append_nil, List.mem_append] at hx
    rcases hx with hx | hx
    · exact Ready.known e (hts (y, e) (.head _)) x hx
    · exact ih (fun t ht => hts t (.tail _ ht)) x (List.mem_of_mem_filter hx)

theorem not_mem_freeNames_primFunction (n : Nat) (p : Prim) (x : String) :
    x ∉ (primFunction n p).freeNames := by
  have hvars (xs : List Ident) : listFreeNames (xs.map mkVar) = xs.map Ident.name := by
    induction xs with
    | nil => rfl
    | cons y xs ih => simp [mkVar, ih]
  have hresult : (primResult p ((namesAfter n p.parameters).map mkVar)).freeNames =
      (namesAfter n p.parameters).map Ident.name := by
    unfold primResult
    split <;> simp [mkBinary, mkApp, hvars]
  simp only [primFunction, mkMap, mkApp, mkVar, freeNames, listFreeNames, hresult]
  simp
  grind

/-- A form has the free names of its operands and others, which stay when the operands are
replaced. -/
theorem Replaces.mem_freeNames {e : NamedExpr} {es' : List NamedExpr} (h : Replaces e es e' es') :
    ∃ R : String → Prop,
      (∀ x, x ∈ e.freeNames ↔ x ∈ listFreeNames es ∨ R x) ∧
        ∀ x, x ∈ e'.freeNames ↔ x ∈ listFreeNames es' ∨ R x := by
  cases h with
  | @primCall f => exact ⟨fun x => x ∈ f.freeNames, by simp [or_comm], by simp [or_comm]⟩
  | call _ | unary | binary _ _ => exact ⟨fun _ => False, by simp, by simp⟩
  | @test _ _ a b => exact ⟨fun x => x ∈ a.freeNames ∨ x ∈ b.freeNames, by simp, by simp⟩
  | @values body _ defs _ hlen =>
    exact ⟨fun x => x ∈ body.freeNames ∧ x ∉ Expr.defNames defs, by simp [defsFreeNames_eq],
      by simp [defsFreeNames_eq, defNames_rebind hlen, defValues_rebind hlen]⟩

/-- Definitions with other values of the same free names around another body; `K` is what else is
free in that body. -/
theorem mem_freeNames_letIn {kind : LetKind} {defs defs' : List (Ident × NamedExpr)}
    {K : String → Prop} (hdefs : ∀ x, x ∈ defsFreeNames defs' ↔ x ∈ defsFreeNames defs)
    (hnames : Expr.defNames defs' = Expr.defNames defs)
    (hb : ∀ x, x ∈ b.freeNames ↔ K x ∨ x ∈ body.freeNames) (hK : ∀ x, K x → x ∉ Expr.defNames defs)
    (x : String) :
    x ∈ (Expr.letIn s kind defs' () b : NamedExpr).freeNames ↔
      K x ∨ x ∈ (Expr.letIn s kind defs () body : NamedExpr).freeNames := by
  have hKx := hK x
  cases kind <;>
    simp only [freeNames, List.mem_append, List.mem_filter, hdefs, hnames, hb,
      decide_eq_true_eq] <;>
    grind

theorem mem_freeNames_mkMap : x ∈ (mkMap [y] b).freeNames ↔ x ∈ b.freeNames ∧ x ≠ y.name := by
  simp [mkMap]

theorem mem_freeNames_mkLet :
    x ∈ (mkLet [(y, e)] b).freeNames ↔ x ∈ e.freeNames ∨ x ∈ b.freeNames ∧ x ≠ y.name := by
  simp [mkLet, Expr.defNames]

theorem mem_freeNames_pair :
    x ∈ (Expr.block s [e, e'] : NamedExpr).freeNames ↔ x ∈ e.freeNames ∨ x ∈ e'.freeNames := by
  simp

theorem passable_mkMap (hb : ∀ x ∈ b.freeNames, Known n x) : Passable n (mkMap [y] b) :=
  ⟨fun x hx => hb x (mem_freeNames_mkMap.mp hx).1, nofun⟩

/-! ### Along the rules -/

mutual

/-- What is free in a converted expression is what is free in the continuation and in the
expression. -/
theorem Converts.mem_freeNames {k e c : NamedExpr} {n n' : Nat} (h : Converts k e n c n')
    (hk : Passable n k) (he : e.Ready n) (x : String) :
    x ∈ c.freeNames ↔ x ∈ k.freeNames ∨ x ∈ e.freeNames := by
  match h with
  | .simple _ hr =>
    simp only [mkApp, freeNames, listFreeNames, List.append_nil, List.mem_append,
      hr.mem_freeNames he]
  | .operands _ hrep hc =>
    obtain ⟨hes, he'⟩ := hrep.ready he
    obtain ⟨R, hfree, hfree'⟩ := hrep.mem_freeNames
    rw [hc.mem_freeNames (hk.mono (Nat.le_add_right _ _)) hk.not_mem (ready_temporaries hes) he',
      mem_freeNames_chained (AllReady.known _ hes)
        (fun y hy => Ready.known _ he y ((hfree y).mpr (.inr hy))) hfree', hfree]
  | .and _ hc =>
    rw [hc.mem_freeNames hk ⟨he.1, ⟨he.2, trivial⟩, trivial⟩]
    simp [mkCond]
  | .or _ hc =>
    rw [hc.mem_freeNames hk ⟨he.1, trivial, he.2, trivial⟩]
    simp [mkCond]
  | .block _ hc =>
    rw [hc.mem_freeNames hk he]
    rfl
  | .call _ _ hr hrs =>
    have hargs := hrs.mem_freeNames (AllReady.mono hr.le _ he.2)
    simp only [freeNames, listFreeNames_append, listFreeNames, List.append_nil, List.mem_append,
      hr.mem_freeNames he.1, hargs]
    grind
  | .cond _ _ hr hshare ha hb hc =>
    subst hc
    obtain ⟨hk', -⟩ := hshare.passable (hk.mono hr.le)
    have hle := le_trans hr.le hshare.le
    have ha' := ha.mem_freeNames hk' (Ready.mono hle _ he.2.1)
    have hb' := hb.mem_freeNames (hk'.mono ha.le) (Ready.mono (le_trans hle ha.le) _ he.2.2)
    refine hshare.mem_freeNames (fun y hy => (Ready.known _ he y hy).mono hr.le) (fun y => ?_) x
    simp only [freeNames, List.mem_append, hr.mem_freeNames he.1, ha', hb']
    grind
  | .letIn _ _ hr hshare hb hc =>
    subst hc
    obtain ⟨hk', hmade⟩ := hshare.passable (hk.mono hr.le)
    have hb' := hb.mem_freeNames hk' (Ready.mono (le_trans hr.le hshare.le) _ he.2)
    refine hshare.mem_freeNames (fun y hy => (Ready.known _ he y hy).mono hr.le) (fun y => ?_) x
    -- a shared continuation has a made name, and the definitions have none
    exact mem_freeNames_letIn (hr.mem_freeNames he.1) hr.defNames hb'
      (fun z hz hmem => ((defsReady_iff _).mp he.1).1 z hmem (hmade z hz)) y
  | .letOne (x := y) _ hshare hb hc' hc =>
    subst hc
    obtain ⟨hk', hmade⟩ := hshare.passable hk
    have hne : ∀ z ∈ freeNames _, z ≠ y.name := fun z hz heq => he.1.1.1 (heq ▸ hmade z hz)
    have hbody := Ready.mono hshare.le _ he.2
    have hb' := hb.mem_freeNames hk' hbody
    have hpass : Passable _ (mkMap [y] _) := passable_mkMap fun z hz =>
      ((hb' z).mp hz).elim (fun hz => (hk'.known z hz).mono hb.le)
        fun hz => (Ready.known _ hbody z hz).mono hb.le
    have hc' := hc'.mem_freeNames hpass (Ready.mono (le_trans hshare.le hb.le) _ he.1.1.2)
    refine hshare.mem_freeNames (Ready.known _ he) (fun z => ?_) x
    have hne := hne z
    rw [hc', mem_freeNames_mkMap, hb']
    simp only [freeNames, defsFreeNames, defFreeNames, List.append_nil, List.mem_append,
      List.mem_filter, Expr.defNames, List.map_cons, List.map_nil, List.mem_singleton,
      decide_eq_true_eq]
    grind

/-- A converted chain has the free names of the chain and of the continuation. -/
theorem Chains.mem_freeNames {k body c : NamedExpr} {ts : List (Ident × NamedExpr)} {n n' : Nat}
    (h : Chains k ts body n c n') (hk : Passable n k) (hnot : ∀ t ∈ ts, t.1.name ∉ k.freeNames)
    (hts : ∀ t ∈ ts, t.2.Ready n) (hbody : body.Ready n) (x : String) :
    x ∈ c.freeNames ↔ x ∈ k.freeNames ∨ x ∈ (chained ts body).freeNames := by
  match h with
  | .nil hc => exact hc.mem_freeNames hk hbody x
  | .simple (x := y) _ hr hc =>
    obtain ⟨he, hts⟩ := List.forall_mem_cons.mp hts
    obtain ⟨hy, hnot⟩ := List.forall_mem_cons.mp hnot
    have hc' := hc.mem_freeNames (hk.mono hr.le) hnot
      (fun t ht => Ready.mono hr.le _ (hts t ht)) (Ready.mono hr.le _ hbody)
    have hne : x ∈ k.freeNames → x ≠ y.name := fun hx heq => hy (heq ▸ hx)
    rw [chained, mem_freeNames_mkLet, mem_freeNames_mkLet, hr.mem_freeNames he, hc']
    grind
  | .call (x := y) _ hr hc =>
    obtain ⟨he, hts⟩ := List.forall_mem_cons.mp hts
    obtain ⟨hy, hnot⟩ := List.forall_mem_cons.mp hnot
    have hr' := hr.mem_freeNames hk hnot hts hbody
    have hpass : Passable _ (mkMap [y] _) := passable_mkMap fun z hz =>
      ((hr' z).mp hz).elim (fun hz => (hk.known z hz).mono hr.le)
        fun hz => (known_chained hts hbody z hz).mono hr.le
    have hne : x ∈ k.freeNames → x ≠ y.name := fun hx heq => hy (heq ▸ hx)
    rw [hc.mem_freeNames hpass (Ready.mono hr.le _ he), mem_freeNames_mkMap, hr', chained,
      mem_freeNames_mkLet]
    grind

/-- A converted sequence has the free names of the sequence and of the continuation. -/
theorem ConvertsAll.mem_freeNames {k c : NamedExpr} {es : List NamedExpr} {n n' : Nat}
    (h : ConvertsAll k es n c n') (hk : Passable n k) (hes : AllReady n es) (x : String) :
    x ∈ c.freeNames ↔ x ∈ k.freeNames ∨ x ∈ listFreeNames es := by
  match h with
  | .nil hc => exact hc.mem_freeNames hk trivial x
  | .last hc => simpa using hc.mem_freeNames hk hes.1 x
  | .simple _ hr hc =>
    have hc' := hc.mem_freeNames (hk.mono hr.le) (AllReady.mono hr.le _ hes.2)
    rw [mem_freeNames_pair, hr.mem_freeNames hes.1, hc']
    simp only [listFreeNames, List.mem_append]
    grind
  | .call _ hr hc =>
    have hr' := hr.mem_freeNames (hk.mono (Nat.le_succ _)) (AllReady.mono (Nat.le_succ _) _ hes.2)
    have hknown := fun z hz => (Or.elim hz (hk.known z) (AllReady.known _ hes.2 z) : Known n z)
    have hpass : Passable _ (mkMap [freshName (n + 1)]
        (.block .synthetic [mkVar (freshName (n + 1)), _])) :=
      passable_mkMap fun z hz => by
        rw [mem_freeNames_pair, hr'] at hz
        rcases hz with hz | hz
        · exact List.mem_singleton.mp hz ▸ known_freshName hr.le
        · exact (hknown z hz).mono (le_trans (Nat.le_succ _) hr.le)
    have hne := fun hx => (hknown x hx).ne
    rw [hc.mem_freeNames hpass (Ready.mono (le_trans (Nat.le_succ _) hr.le) _ hes.1),
      mem_freeNames_mkMap, mem_freeNames_pair, hr']
    simp only [mkVar, freeNames, List.mem_singleton, listFreeNames, List.mem_append] at hne ⊢
    grind

/-- Reshaping leaves the free names as they are. -/
theorem Reshapes.mem_freeNames {e r : NamedExpr} {n n' : Nat} (h : Reshapes e n r n')
    (he : e.Ready n) (x : String) : x ∈ r.freeNames ↔ x ∈ e.freeNames := by
  match h with
  | .int _ _ _ | .bool _ _ _ | .null _ _ | .var _ _ _ => rfl
  | .prim _ p n => simpa using not_mem_freeNames_primFunction n p x
  | .map hb =>
    have hne := fun hx => (Ready.known _ he.2 x hx).ne
    simp only [freeNames, List.mem_filter, hb.mem_freeNames (passable_freshName _)
      (Ready.mono (Nat.le_succ _) _ he.2), mkVar, List.mem_singleton, List.map_append,
      List.mem_append, List.map_cons, List.map_nil, decide_eq_true_eq]
    grind
  | .arity _ hr => simp [hr.mem_freeNames he.2]
  | .app _ hr => simp [hr.mem_freeNames he.2]
  | .unary hr => exact hr.mem_freeNames he x
  | .binary hl hr =>
    simp [hl.mem_freeNames he.1, hr.mem_freeNames (Ready.mono hl.le _ he.2)]
  | .cond ht ha hb =>
    simp [ht.mem_freeNames he.1, ha.mem_freeNames (Ready.mono ht.le _ he.2.1),
      hb.mem_freeNames (Ready.mono (le_trans ht.le ha.le) _ he.2.2)]
  | .letIn hd hb =>
    simpa using mem_freeNames_letIn (K := fun _ => False) (hd.mem_freeNames he.1) hd.defNames
      (fun y => by simpa using hb.mem_freeNames (Ready.mono hd.le _ he.2) y) nofun x
  | .block hr => exact hr.mem_freeNames he x

theorem ReshapesAll.mem_freeNames {es es' : List NamedExpr} {n n' : Nat}
    (h : ReshapesAll es n es' n') (he : AllReady n es) (x : String) :
    x ∈ listFreeNames es' ↔ x ∈ listFreeNames es := by
  match h with
  | .nil _ => rfl
  | .cons hr hrs =>
    simp [hr.mem_freeNames he.1, hrs.mem_freeNames (AllReady.mono hr.le _ he.2)]

theorem ReshapesDefs.mem_freeNames {ds ds' : List (Ident × NamedExpr)} {n n' : Nat}
    (h : ReshapesDefs ds n ds' n') (hd : DefsReady n ds) (x : String) :
    x ∈ defsFreeNames ds' ↔ x ∈ defsFreeNames ds := by
  match h with
  | .nil _ => rfl
  | .cons hr hrs =>
    simp [hr.mem_freeNames hd.1.2, hrs.mem_freeNames (DefsReady.mono hr.le _ hd.2)]

end

end Conversion

end Mapling
