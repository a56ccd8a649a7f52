import Mapling.Proofs.Scope.Lookup

/-! # Free and declared names

The names that are free in an expression, and the names that its binding forms declare. A program
resolves exactly if nothing is free in it and every form declares its names once
(`exists_resolve_eq_ok_iff`). -/

namespace Mapling

namespace Expr

mutual

@[simp] def freeNames : NamedExpr → List String
  | .int _ _ | .bool _ _ | .null _ | .prim _ _ => []
  | .var _ x => [x.name]
  | .unary _ _ e => e.freeNames
  | .binary _ _ l r => l.freeNames ++ r.freeNames
  | .app _ f args => f.freeNames ++ listFreeNames args
  | .map _ params _ body => body.freeNames.filter (fun x => x ∉ params.map Ident.name)
  | .cond _ t a b => t.freeNames ++ a.freeNames ++ b.freeNames
  | .letIn _ .plain defs _ body =>
    defsFreeNames defs ++ body.freeNames.filter (fun x => x ∉ defNames defs)
  | .letIn _ .recursive defs _ body =>
    (defsFreeNames defs ++ body.freeNames).filter (fun x => x ∉ defNames defs)
  | .block _ es => listFreeNames es

@[simp] def listFreeNames : List NamedExpr → List String
  | [] => []
  | e :: es => e.freeNames ++ listFreeNames es

@[simp] def defsFreeNames : List (Ident × NamedExpr) → List String
  | [] => []
  | d :: ds => defFreeNames d ++ defsFreeNames ds

@[simp] def defFreeNames : Ident × NamedExpr → List String
  | (_, e) => e.freeNames

end

mutual

/-- The names that each binding form of an expression declares. -/
@[simp] def declarations : NamedExpr → List (List String)
  | .int _ _ | .bool _ _ | .null _ | .var _ _ | .prim _ _ => []
  | .unary _ _ e => e.declarations
  | .binary _ _ l r => l.declarations ++ r.declarations
  | .app _ f args => f.declarations ++ listDeclarations args
  | .map _ params _ body => params.map Ident.name :: body.declarations
  | .cond _ t a b => t.declarations ++ a.declarations ++ b.declarations
  | .letIn _ _ defs _ body => defNames defs :: (defsDeclarations defs ++ body.declarations)
  | .block _ es => listDeclarations es

@[simp] def listDeclarations : List NamedExpr → List (List String)
  | [] => []
  | e :: es => e.declarations ++ listDeclarations es

@[simp] def defsDeclarations : List (Ident × NamedExpr) → List (List String)
  | [] => []
  | d :: ds => defDeclarations d ++ defsDeclarations ds

@[simp] def defDeclarations : Ident × NamedExpr → List (List String)
  | (_, e) => e.declarations

end

/-- The names that are declared in an expression, each as often as it is declared. -/
def binders (e : NamedExpr) : List String := e.declarations.flatten

theorem listFreeNames_append (es es' : List NamedExpr) :
    listFreeNames (es ++ es') = listFreeNames es ++ listFreeNames es' := by
  induction es with
  | nil => rfl
  | cons e es ih => simp [ih]

theorem listDeclarations_append (es es' : List NamedExpr) :
    listDeclarations (es ++ es') = listDeclarations es ++ listDeclarations es' := by
  induction es with
  | nil => rfl
  | cons e es ih => simp [ih]

/-! What holds of definitions holds of their values. -/

theorem defsFreeNames_eq (ds : List (Ident × NamedExpr)) :
    defsFreeNames ds = listFreeNames (defValues ds) := by
  induction ds with
  | nil => rfl
  | cons d ds ih =>
    obtain ⟨x, e⟩ := d
    simpa [defValues] using ih

theorem defsDeclarations_eq (ds : List (Ident × NamedExpr)) :
    defsDeclarations ds = listDeclarations (defValues ds) := by
  induction ds with
  | nil => rfl
  | cons d ds ih =>
    obtain ⟨x, e⟩ := d
    simpa [defValues] using ih

end Expr

/-! ## Resolving -/

theorem Scopes.isSome_address? {scopes : Scopes} {x : String} :
    (scopes.address? x).isSome ↔ x ∈ scopes.flatten := by
  induction scopes with
  | nil => simp [Scopes.address?]
  | cons names outer ih =>
    rw [Scopes.address?]
    rcases hi : names.idxOf? x with _ | i
    · have hx : x ∉ names := List.idxOf?_eq_none_iff.mp hi
      simp [ih, hx]
    · have hx : x ∈ names := by
        obtain ⟨hlt, heq, -⟩ := List.idxOf?_eq_some_iff.mp hi
        exact heq ▸ List.getElem_mem hlt
      simp [hx]

theorem repeats_eq_nil_iff {form : BindingForm} {seen : List String} {xs : List Ident} :
    repeats form seen xs = [] ↔ (xs.map Ident.name).Nodup ∧ ∀ x ∈ xs, x.name ∉ seen := by
  refine ⟨nodup_of_repeats_eq_nil, ?_⟩
  rintro ⟨hxs, hseen⟩
  induction xs generalizing seen with
  | nil => rfl
  | cons x xs ih =>
    rw [List.map_cons, List.nodup_cons] at hxs
    have hx : x.name ∉ seen := hseen x (.head _)
    rw [repeats, if_neg (by simpa using hx)]
    refine ih hxs.2 fun y hy hmem => ?_
    rcases List.mem_cons.mp hmem with heq | hmem
    · exact hxs.1 (heq ▸ List.mem_map_of_mem hy)
    · exact hseen y (.tail _ hy) hmem

namespace Expr

theorem repeats_defs_eq_nil_iff {form : BindingForm} {defs : List (Ident × NamedExpr)} :
    repeats form [] (defs.map Prod.fst) = [] ↔ (defNames defs).Nodup := by
  simp [repeats_eq_nil_iff, defNames, Function.comp_def]

/-- No form declares a name twice, and what is free is declared around the expression. -/
def WellScoped (declared : List String) (declarations : List (List String))
    (free : List String) : Prop :=
  (∀ names ∈ declarations, names.Nodup) ∧ ∀ x ∈ free, x ∈ declared

mutual

/-- The expressions without a fault. -/
theorem scopeFaults_eq_nil_iff (scopes : Scopes) : (e : NamedExpr) →
    (e.scopeFaults scopes = [] ↔ WellScoped scopes.flatten e.declarations e.freeNames)
  | .int _ _ | .bool _ _ | .null _ | .prim _ _ => by simp [scopeFaults, WellScoped]
  | .var _ x => by
    rw [scopeFaults]
    split
    · rename_i hx
      simpa [WellScoped] using Scopes.isSome_address?.mp hx
    · rename_i hx
      rw [Scopes.isSome_address?] at hx
      simpa [WellScoped] using hx
  | .unary _ _ e => by simpa [scopeFaults] using scopeFaults_eq_nil_iff scopes e
  | .binary _ _ l r => by
    have hl := scopeFaults_eq_nil_iff scopes l
    have hr := scopeFaults_eq_nil_iff scopes r
    simp only [WellScoped, scopeFaults, List.append_eq_nil_iff, declarations, freeNames,
      List.forall_mem_append] at hl hr ⊢
    grind
  | .app _ f args => by
    have hf := scopeFaults_eq_nil_iff scopes f
    have hargs := listFaults_eq_nil_iff scopes args
    simp only [WellScoped, scopeFaults, List.append_eq_nil_iff, declarations, freeNames,
      List.forall_mem_append] at hf hargs ⊢
    grind
  | .map _ params _ body => by
    have hbody := scopeFaults_eq_nil_iff (params.map Ident.name :: scopes) body
    simp only [WellScoped, scopeFaults, List.append_eq_nil_iff, repeats_eq_nil_iff, declarations,
      freeNames, List.forall_mem_cons, List.flatten_cons, List.mem_append, List.mem_filter,
      decide_eq_true_eq] at hbody ⊢
    grind
  | .cond _ t a b => by
    have ht := scopeFaults_eq_nil_iff scopes t
    have ha := scopeFaults_eq_nil_iff scopes a
    have hb := scopeFaults_eq_nil_iff scopes b
    simp only [WellScoped, scopeFaults, List.append_eq_nil_iff, declarations, freeNames,
      List.forall_mem_append] at ht ha hb ⊢
    grind
  | .letIn _ .plain defs _ body => by
    have hdefs := defsFaults_eq_nil_iff scopes defs
    have hbody := scopeFaults_eq_nil_iff (defNames defs :: scopes) body
    simp only [WellScoped, scopeFaults, List.append_eq_nil_iff, repeats_defs_eq_nil_iff,
      declarations, freeNames, List.forall_mem_cons, List.flatten_cons, List.mem_append,
      List.mem_filter, decide_eq_true_eq] at hdefs hbody ⊢
    grind
  | .letIn _ .recursive defs _ body => by
    have hdefs := defsFaults_eq_nil_iff (defNames defs :: scopes) defs
    have hbody := scopeFaults_eq_nil_iff (defNames defs :: scopes) body
    simp only [WellScoped, scopeFaults, List.append_eq_nil_iff, repeats_defs_eq_nil_iff,
      declarations, freeNames, List.forall_mem_cons, List.flatten_cons, List.mem_append,
      List.mem_filter, decide_eq_true_eq] at hdefs hbody ⊢
    grind
  | .block _ es => by simpa [scopeFaults] using listFaults_eq_nil_iff scopes es

theorem listFaults_eq_nil_iff (scopes : Scopes) : (es : List NamedExpr) →
    (listFaults scopes es = [] ↔
      WellScoped scopes.flatten (listDeclarations es) (listFreeNames es))
  | [] => by simp [listFaults, WellScoped]
  | e :: es => by
    have he := scopeFaults_eq_nil_iff scopes e
    have hes := listFaults_eq_nil_iff scopes es
    simp only [WellScoped, listFaults, List.append_eq_nil_iff, listDeclarations, listFreeNames,
      List.forall_mem_append] at he hes ⊢
    grind

theorem defsFaults_eq_nil_iff (scopes : Scopes) : (ds : List (Ident × NamedExpr)) →
    (defsFaults scopes ds = [] ↔
      WellScoped scopes.flatten (defsDeclarations ds) (defsFreeNames ds))
  | [] => by simp [defsFaults, WellScoped]
  | d :: ds => by
    have hd := defFaults_eq_nil_iff scopes d
    have hds := defsFaults_eq_nil_iff scopes ds
    simp only [WellScoped, defsFaults, List.append_eq_nil_iff, defsDeclarations, defsFreeNames,
      List.forall_mem_append] at hd hds ⊢
    grind

theorem defFaults_eq_nil_iff (scopes : Scopes) : (d : Ident × NamedExpr) →
    (defFaults scopes d = [] ↔ WellScoped scopes.flatten (defDeclarations d) (defFreeNames d))
  | (_, e) => scopeFaults_eq_nil_iff scopes e

end

/-- The programs that resolve. -/
theorem exists_resolve_eq_ok_iff (e : NamedExpr) :
    (∃ r, e.resolve = .ok r) ↔
      (∀ names ∈ e.declarations, names.Nodup) ∧ ∀ x, x ∉ e.freeNames := by
  have hfaults : e.scopeFaults [] = [] ↔ _ := scopeFaults_eq_nil_iff [] e
  simp only [WellScoped, List.flatten_nil, List.not_mem_nil] at hfaults
  rw [← show (e.scopeFaults [] = [] ↔ _) from hfaults, resolve_eq]
  cases e.scopeFaults [] with
  | nil | cons => simp

end Expr

end Mapling
