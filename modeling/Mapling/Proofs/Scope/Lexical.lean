import Mapling.Proofs.Scope.Names

/-! # Lexical addresses

A program and its resolved form differ in their variables and in the layouts of their binding
forms, and in nothing else: both arise from one traversal that knows, at every variable, which
names the forms around it declare (`Expr.relabel`). Resolving puts the address of the innermost
declaration for each name; reading each address as the name it denotes takes that back. -/

namespace Mapling

/-- The names around the definitions of a `let` that declares `names` itself. -/
def LetKind.around (kind : LetKind) (names : List String) (scopes : Scopes) : Scopes :=
  match kind with
  | .plain => scopes
  | .recursive => names :: scopes

namespace Expr

section

variable {V L V' L' V'' L'' : Type}

/-! ## Variables and binding forms in their places -/

mutual

/-- The expression with other variables and other layouts. What becomes of a variable depends on
the names declared around it, those of each form in order, innermost form first; what becomes of
a layout depends on the names its form declares. -/
def relabel (f : Scopes → V → V') (g : List String → L → L') (scopes : Scopes) :
    Expr V L → Expr V' L'
  | .int s n => .int s n
  | .bool s b => .bool s b
  | .null s => .null s
  | .prim s p => .prim s p
  | .var s x => .var s (f scopes x)
  | .unary s op e => .unary s op (relabel f g scopes e)
  | .binary s op l r => .binary s op (relabel f g scopes l) (relabel f g scopes r)
  | .app s e args => .app s (relabel f g scopes e) (listRelabel f g scopes args)
  | .map s params layout body =>
    .map s params (g (params.map Ident.name) layout)
      (relabel f g (params.map Ident.name :: scopes) body)
  | .cond s t a b => .cond s (relabel f g scopes t) (relabel f g scopes a) (relabel f g scopes b)
  | .letIn s kind defs layout body =>
    .letIn s kind (defsRelabel f g (kind.around (defNames defs) scopes) defs)
      (g (defNames defs) layout) (relabel f g (defNames defs :: scopes) body)
  | .block s es => .block s (listRelabel f g scopes es)

def listRelabel (f : Scopes → V → V') (g : List String → L → L') (scopes : Scopes) :
    List (Expr V L) → List (Expr V' L')
  | [] => []
  | e :: es => relabel f g scopes e :: listRelabel f g scopes es

def defsRelabel (f : Scopes → V → V') (g : List String → L → L') (scopes : Scopes) :
    List (Ident × Expr V L) → List (Ident × Expr V' L')
  | [] => []
  | d :: ds => defRelabel f g scopes d :: defsRelabel f g scopes ds

def defRelabel (f : Scopes → V → V') (g : List String → L → L') (scopes : Scopes) :
    Ident × Expr V L → Ident × Expr V' L'
  | (x, e) => (x, relabel f g scopes e)

end

mutual

/-- The variables of an expression in the order of the text, each with the names declared around
it. -/
def occurrences (scopes : Scopes) : Expr V L → List (Scopes × V)
  | .int _ _ | .bool _ _ | .null _ | .prim _ _ => []
  | .var _ x => [(scopes, x)]
  | .unary _ _ e => occurrences scopes e
  | .binary _ _ l r => occurrences scopes l ++ occurrences scopes r
  | .app _ e args => occurrences scopes e ++ listOccurrences scopes args
  | .map _ params _ body => occurrences (params.map Ident.name :: scopes) body
  | .cond _ t a b => occurrences scopes t ++ occurrences scopes a ++ occurrences scopes b
  | .letIn _ kind defs _ body =>
    defsOccurrences (kind.around (defNames defs) scopes) defs ++
      occurrences (defNames defs :: scopes) body
  | .block _ es => listOccurrences scopes es

def listOccurrences (scopes : Scopes) : List (Expr V L) → List (Scopes × V)
  | [] => []
  | e :: es => occurrences scopes e ++ listOccurrences scopes es

def defsOccurrences (scopes : Scopes) : List (Ident × Expr V L) → List (Scopes × V)
  | [] => []
  | d :: ds => defOccurrences scopes d ++ defsOccurrences scopes ds

def defOccurrences (scopes : Scopes) : Ident × Expr V L → List (Scopes × V)
  | (_, e) => occurrences scopes e

end

mutual

/-- The binding forms of an expression: the names each declares, and its layout. -/
def bindingForms : Expr V L → List (List String × L)
  | .int _ _ | .bool _ _ | .null _ | .var _ _ | .prim _ _ => []
  | .unary _ _ e => bindingForms e
  | .binary _ _ l r => bindingForms l ++ bindingForms r
  | .app _ e args => bindingForms e ++ listBindingForms args
  | .map _ params layout body => (params.map Ident.name, layout) :: bindingForms body
  | .cond _ t a b => bindingForms t ++ bindingForms a ++ bindingForms b
  | .letIn _ _ defs layout body =>
    (defNames defs, layout) :: (defsBindingForms defs ++ bindingForms body)
  | .block _ es => listBindingForms es

def listBindingForms : List (Expr V L) → List (List String × L)
  | [] => []
  | e :: es => bindingForms e ++ listBindingForms es

def defsBindingForms : List (Ident × Expr V L) → List (List String × L)
  | [] => []
  | d :: ds => defBindingForms d ++ defsBindingForms ds

def defBindingForms : Ident × Expr V L → List (List String × L)
  | (_, e) => bindingForms e

end

/-! The same, list by list. -/

theorem listRelabel_eq (f : Scopes → V → V') (g : List String → L → L') (scopes : Scopes)
    (es : List (Expr V L)) : listRelabel f g scopes es = es.map (relabel f g scopes) := by
  induction es with
  | nil => rfl
  | cons e es ih => rw [listRelabel, ih, List.map_cons]

theorem defsRelabel_eq (f : Scopes → V → V') (g : List String → L → L') (scopes : Scopes)
    (ds : List (Ident × Expr V L)) :
    defsRelabel f g scopes ds = ds.map (fun d => (d.1, relabel f g scopes d.2)) := by
  induction ds with
  | nil => rfl
  | cons d ds ih => rw [defsRelabel, ih, List.map_cons, defRelabel]

theorem defNames_relabel (f : Scopes → V → V') (g : List String → L → L') (scopes : Scopes)
    (ds : List (Ident × Expr V L)) :
    defNames (ds.map (fun d => (d.1, relabel f g scopes d.2))) = defNames ds := by
  simp [defNames]

theorem listOccurrences_eq (scopes : Scopes) (es : List (Expr V L)) :
    listOccurrences scopes es = es.flatMap (occurrences scopes) := by
  induction es with
  | nil => rfl
  | cons e es ih => rw [listOccurrences, ih, List.flatMap_cons]

theorem defsOccurrences_eq (scopes : Scopes) (ds : List (Ident × Expr V L)) :
    defsOccurrences scopes ds = ds.flatMap (fun d => occurrences scopes d.2) := by
  induction ds with
  | nil => rfl
  | cons d ds ih => rw [defsOccurrences, ih, List.flatMap_cons, defOccurrences]

theorem listBindingForms_eq (es : List (Expr V L)) :
    listBindingForms es = es.flatMap bindingForms := by
  induction es with
  | nil => rfl
  | cons e es ih => rw [listBindingForms, ih, List.flatMap_cons]

theorem defsBindingForms_eq (ds : List (Ident × Expr V L)) :
    defsBindingForms ds = ds.flatMap (fun d => bindingForms d.2) := by
  induction ds with
  | nil => rfl
  | cons d ds ih => rw [defsBindingForms, ih, List.flatMap_cons, defBindingForms]

/-! ## Induction -/

section

variable {motive : Expr V L → Prop}
  (int : ∀ s n, motive (.int s n)) (bool : ∀ s b, motive (.bool s b))
  (null : ∀ s, motive (.null s)) (var : ∀ s x, motive (.var s x))
  (prim : ∀ s p, motive (.prim s p))
  (unary : ∀ s op e, motive e → motive (.unary s op e))
  (binary : ∀ s op l r, motive l → motive r → motive (.binary s op l r))
  (app : ∀ s f args, motive f → (∀ e ∈ args, motive e) → motive (.app s f args))
  (map : ∀ s params layout body, motive body → motive (.map s params layout body))
  (cond : ∀ s t a b, motive t → motive a → motive b → motive (.cond s t a b))
  (letIn : ∀ s kind defs layout body, (∀ d ∈ defs, motive d.2) → motive body →
    motive (.letIn s kind defs layout body))
  (block : ∀ s es, (∀ e ∈ es, motive e) → motive (.block s es))

include int bool null var prim unary binary app map cond letIn block

/-- Induction over an expression, with one hypothesis for all members of a list. -/
@[elab_as_elim] theorem induction (e : Expr V L) : motive e :=
  @Expr.rec V L motive (fun es => ∀ e ∈ es, motive e) (fun ds => ∀ d ∈ ds, motive d.2)
    (fun d => motive d.2) int bool null var prim unary binary app map cond letIn block
    (fun _ h => nomatch h) (fun _ _ he hes => List.forall_mem_cons.mpr ⟨he, hes⟩)
    (fun _ h => nomatch h) (fun _ _ hd hds => List.forall_mem_cons.mpr ⟨hd, hds⟩)
    (fun _ _ he => he) e

end

/-! ## Relabelling -/

variable (f : Scopes → V → V') (g : List String → L → L')

/-- Relabelling twice is relabelling once. -/
theorem relabel_relabel (f' : Scopes → V' → V'') (g' : List String → L' → L'') (scopes : Scopes)
    (e : Expr V L) :
    (e.relabel f g scopes).relabel f' g' scopes =
      e.relabel (fun scopes x => f' scopes (f scopes x)) (fun names l => g' names (g names l))
        scopes := by
  induction e using Expr.induction generalizing scopes with
  | unary s op e ihe => simp only [relabel, ihe]
  | binary s op l r ihl ihr => simp only [relabel, ihl, ihr]
  | app s e args ihe ihargs =>
    simp only [relabel, listRelabel_eq, ihe, List.map_map, Function.comp_def]
    rw [List.map_congr_left (fun e he => ihargs e he scopes)]
  | map s params layout body ih => simp only [relabel, ih]
  | cond s t a b iht iha ihb => simp only [relabel, iht, iha, ihb]
  | letIn s kind defs layout body ihdefs ihbody =>
    simp only [relabel, defsRelabel_eq, defNames_relabel, ihbody, List.map_map,
      Function.comp_def]
    rw [List.map_congr_left (fun d hd => congrArg (Prod.mk d.1) (ihdefs d hd (kind.around _ _)))]
  | block s es ihes =>
    simp only [relabel, listRelabel_eq, List.map_map, Function.comp_def]
    rw [List.map_congr_left (fun e he => ihes e he scopes)]
  | _ => rfl

/-- Only the variables that occur matter. -/
theorem relabel_congr {f f' : Scopes → V → V'} (scopes : Scopes) (e : Expr V L)
    (h : ∀ o ∈ e.occurrences scopes, f o.1 o.2 = f' o.1 o.2) :
    e.relabel f g scopes = e.relabel f' g scopes := by
  induction e using Expr.induction generalizing scopes with
  | var s x => simpa [relabel, occurrences] using h
  | unary s op e ihe => simp only [relabel, ihe scopes h]
  | binary s op l r ihl ihr =>
    simp only [occurrences, List.forall_mem_append] at h
    simp only [relabel, ihl scopes h.1, ihr scopes h.2]
  | app s e args ihe ihargs =>
    simp only [occurrences, listOccurrences_eq, List.forall_mem_append,
      List.forall_mem_flatMap] at h
    simp only [relabel, listRelabel_eq, ihe scopes h.1]
    rw [List.map_congr_left (fun e he => ihargs e he scopes (h.2 e he))]
  | map s params layout body ih => simp only [relabel, ih _ h]
  | cond s t a b iht iha ihb =>
    simp only [occurrences, List.forall_mem_append] at h
    simp only [relabel, iht scopes h.1.1, iha scopes h.1.2, ihb scopes h.2]
  | letIn s kind defs layout body ihdefs ihbody =>
    simp only [occurrences, defsOccurrences_eq, List.forall_mem_append,
      List.forall_mem_flatMap] at h
    simp only [relabel, defsRelabel_eq, ihbody _ h.2]
    rw [List.map_congr_left (fun d hd =>
      congrArg (Prod.mk d.1) (ihdefs d hd (kind.around _ _) (h.1 d hd)))]
  | block s es ihes =>
    simp only [occurrences, listOccurrences_eq, List.forall_mem_flatMap] at h
    simp only [relabel, listRelabel_eq]
    rw [List.map_congr_left (fun e he => ihes e he scopes (h e he))]
  | _ => rfl

/-- The variables of a relabelled expression stand where those of the expression stood. -/
theorem occurrences_relabel (scopes : Scopes) (e : Expr V L) :
    (e.relabel f g scopes).occurrences scopes =
      (e.occurrences scopes).map (fun o => (o.1, f o.1 o.2)) := by
  induction e using Expr.induction generalizing scopes with
  | unary s op e ihe => simp only [relabel, occurrences, ihe]
  | binary s op l r ihl ihr => simp only [relabel, occurrences, ihl, ihr, List.map_append]
  | app s e args ihe ihargs =>
    simp only [relabel, occurrences, listRelabel_eq, listOccurrences_eq, ihe, List.map_append,
      List.flatMap_map, List.map_flatMap]
    rw [List.flatMap_congr (fun e he => ihargs e he scopes)]
  | map s params layout body ih => simp only [relabel, occurrences, ih]
  | cond s t a b iht iha ihb => simp only [relabel, occurrences, iht, iha, ihb, List.map_append]
  | letIn s kind defs layout body ihdefs ihbody =>
    simp only [relabel, occurrences, defsRelabel_eq, defsOccurrences_eq, defNames_relabel, ihbody,
      List.map_append, List.flatMap_map, List.map_flatMap]
    rw [List.flatMap_congr (fun d hd => ihdefs d hd (kind.around _ _))]
  | block s es ihes =>
    simp only [relabel, occurrences, listRelabel_eq, listOccurrences_eq, List.flatMap_map,
      List.map_flatMap]
    rw [List.flatMap_congr (fun e he => ihes e he scopes)]
  | _ => rfl

/-- Relabelling keeps the binding forms and what they declare. -/
theorem bindingForms_relabel (scopes : Scopes) (e : Expr V L) :
    (e.relabel f g scopes).bindingForms = e.bindingForms.map (fun d => (d.1, g d.1 d.2)) := by
  induction e using Expr.induction generalizing scopes with
  | unary s op e ihe => simp only [relabel, bindingForms, ihe]
  | binary s op l r ihl ihr => simp only [relabel, bindingForms, ihl, ihr, List.map_append]
  | app s e args ihe ihargs =>
    simp only [relabel, bindingForms, listRelabel_eq, listBindingForms_eq, ihe, List.map_append,
      List.flatMap_map, List.map_flatMap]
    rw [List.flatMap_congr (fun e he => ihargs e he scopes)]
  | map s params layout body ih => simp only [relabel, bindingForms, ih, List.map_cons]
  | cond s t a b iht iha ihb => simp only [relabel, bindingForms, iht, iha, ihb, List.map_append]
  | letIn s kind defs layout body ihdefs ihbody =>
    simp only [relabel, bindingForms, defsRelabel_eq, defsBindingForms_eq, defNames_relabel,
      ihbody, List.map_cons, List.map_append, List.flatMap_map, List.map_flatMap]
    rw [List.flatMap_congr (fun d hd => ihdefs d hd (kind.around _ _))]
  | block s es ihes =>
    simp only [relabel, bindingForms, listRelabel_eq, listBindingForms_eq, List.flatMap_map,
      List.map_flatMap]
    rw [List.flatMap_congr (fun e he => ihes e he scopes)]
  | _ => rfl

/-- The names around a variable are declared by the forms of the expression or around it. -/
theorem forall_names_of_mem_occurrences {P : List String → Prop} (scopes : Scopes) (e : Expr V L)
    (hscopes : ∀ names ∈ scopes, P names) (hforms : ∀ d ∈ e.bindingForms, P d.1) :
    ∀ o ∈ e.occurrences scopes, ∀ names ∈ o.1, P names := by
  induction e using Expr.induction generalizing scopes with
  | var s x => simpa only [occurrences, List.forall_mem_singleton] using hscopes
  | unary s op e ihe => exact ihe scopes hscopes hforms
  | binary s op l r ihl ihr =>
    simp only [bindingForms, occurrences, List.forall_mem_append] at hforms ⊢
    exact ⟨ihl scopes hscopes hforms.1, ihr scopes hscopes hforms.2⟩
  | app s e args ihe ihargs =>
    simp only [bindingForms, occurrences, listBindingForms_eq, listOccurrences_eq,
      List.forall_mem_append, List.forall_mem_flatMap] at hforms ⊢
    exact ⟨ihe scopes hscopes hforms.1,
      fun e he => ihargs e he scopes hscopes (hforms.2 e he)⟩
  | map s params layout body ih =>
    simp only [bindingForms, List.forall_mem_cons] at hforms
    exact ih _ (List.forall_mem_cons.mpr ⟨hforms.1, hscopes⟩) hforms.2
  | cond s t a b iht iha ihb =>
    simp only [bindingForms, occurrences, List.forall_mem_append] at hforms ⊢
    exact ⟨⟨iht scopes hscopes hforms.1.1, iha scopes hscopes hforms.1.2⟩,
      ihb scopes hscopes hforms.2⟩
  | letIn s kind defs layout body ihdefs ihbody =>
    simp only [bindingForms, occurrences, defsBindingForms_eq, defsOccurrences_eq,
      List.forall_mem_append, List.forall_mem_cons, List.forall_mem_flatMap] at hforms ⊢
    obtain ⟨hown, hdefs, hbody⟩ := hforms
    have hinner : ∀ names ∈ defNames defs :: scopes, P names :=
      List.forall_mem_cons.mpr ⟨hown, hscopes⟩
    have haround : ∀ names ∈ kind.around (defNames defs) scopes, P names := by
      cases kind with
      | plain => exact hscopes
      | recursive => exact hinner
    exact ⟨fun d hd => ihdefs d hd _ haround (hdefs d hd), ihbody _ hinner hbody⟩
  | block s es ihes =>
    simp only [bindingForms, occurrences, listBindingForms_eq, listOccurrences_eq,
      List.forall_mem_flatMap] at hforms ⊢
    exact fun e he => ihes e he scopes hscopes (hforms e he)
  | _ => exact fun _ hmem => absurd hmem List.not_mem_nil

end

/-! ## Resolving -/

theorem listFaults_eq (scopes : Scopes) (es : List NamedExpr) :
    listFaults scopes es = es.flatMap (scopeFaults scopes) := by
  induction es with
  | nil => rfl
  | cons e es ih => rw [listFaults, ih, List.flatMap_cons]

theorem defsFaults_eq (scopes : Scopes) (ds : List (Ident × NamedExpr)) :
    defsFaults scopes ds = ds.flatMap (fun d => scopeFaults scopes d.2) := by
  induction ds with
  | nil => rfl
  | cons d ds ih => rw [defsFaults, ih, List.flatMap_cons, defFaults]

/-- Every variable is declared around it, and no form declares a name twice. -/
def Declared (occurrences : List (Scopes × Ident)) (forms : List (List String × Unit)) : Prop :=
  (∀ o ∈ occurrences, ∃ names ∈ o.1, o.2.name ∈ names) ∧ ∀ d ∈ forms, d.1.Nodup

theorem declared_append {os os' : List (Scopes × Ident)} {ds ds' : List (List String × Unit)} :
    Declared (os ++ os') (ds ++ ds') ↔ Declared os ds ∧ Declared os' ds' := by
  simp only [Declared, List.forall_mem_append]
  tauto

theorem declared_cons {os : List (Scopes × Ident)} {names : List String} {layout : Unit}
    {ds : List (List String × Unit)} :
    Declared os ((names, layout) :: ds) ↔ names.Nodup ∧ Declared os ds := by
  simp only [Declared, List.forall_mem_cons]
  tauto

theorem declared_flatMap {α : Type} {as : List α} {o : α → List (Scopes × Ident)}
    {d : α → List (List String × Unit)} :
    Declared (as.flatMap o) (as.flatMap d) ↔ ∀ a ∈ as, Declared (o a) (d a) := by
  simp only [Declared, List.forall_mem_flatMap, forall_and]

/-- The expressions without a fault. -/
theorem scopeFaults_eq_nil_iff_declared (scopes : Scopes) (e : NamedExpr) :
    e.scopeFaults scopes = [] ↔ Declared (e.occurrences scopes) e.bindingForms := by
  induction e using Expr.induction generalizing scopes with
  | var s x =>
    have haddress : (scopes.address? x.name).isSome ↔ ∃ names ∈ scopes, x.name ∈ names :=
      Scopes.isSome_address?.trans List.mem_flatten
    simp only [scopeFaults, Declared, occurrences, bindingForms, List.forall_mem_singleton,
      ← haddress]
    cases scopes.address? x.name <;> simp
  | unary s op e ihe => exact ihe scopes
  | binary s op l r ihl ihr =>
    simp only [scopeFaults, occurrences, bindingForms, List.append_eq_nil_iff, declared_append,
      ihl, ihr]
  | app s e args ihe ihargs =>
    simp only [scopeFaults, occurrences, bindingForms, listFaults_eq, listOccurrences_eq,
      listBindingForms_eq, List.append_eq_nil_iff, List.flatMap_eq_nil_iff, declared_append,
      declared_flatMap, ihe]
    exact and_congr_right (fun _ => forall₂_congr (fun e he => ihargs e he scopes))
  | map s params layout body ih =>
    simp only [scopeFaults, occurrences, bindingForms, List.append_eq_nil_iff,
      repeats_eq_nil_iff, declared_cons, ih]
    simp
  | cond s t a b iht iha ihb =>
    simp only [scopeFaults, occurrences, bindingForms, List.append_eq_nil_iff, declared_append,
      iht, iha, ihb]
  | letIn s kind defs layout body ihdefs ihbody =>
    have hdefs : ∀ scopes, defsFaults scopes defs = [] ↔
        Declared (defsOccurrences scopes defs) (defsBindingForms defs) := by
      intro scopes
      simp only [defsFaults_eq, defsOccurrences_eq, defsBindingForms_eq,
        List.flatMap_eq_nil_iff, declared_flatMap]
      exact forall₂_congr (fun d hd => ihdefs d hd scopes)
    cases kind with
    | plain | recursive =>
      simp only [scopeFaults, occurrences, bindingForms, List.append_eq_nil_iff,
        repeats_defs_eq_nil_iff, declared_cons, declared_append, hdefs, ihbody,
        LetKind.around]
      tauto
  | block s es ihes =>
    simp only [scopeFaults, occurrences, bindingForms, listFaults_eq, listOccurrences_eq,
      listBindingForms_eq, List.flatMap_eq_nil_iff, declared_flatMap]
    exact forall₂_congr (fun e he => ihes e he scopes)
  | _ => simp [scopeFaults, Declared, occurrences, bindingForms]

theorem listAddressed_eq (scopes : Scopes) (es : List NamedExpr) :
    listAddressed scopes es = es.map (addressed scopes) := by
  induction es with
  | nil => rfl
  | cons e es ih => rw [listAddressed, ih, List.map_cons]

theorem defsAddressed_eq (scopes : Scopes) (ds : List (Ident × NamedExpr)) :
    defsAddressed scopes ds = ds.map (fun d => (d.1, addressed scopes d.2)) := by
  induction ds with
  | nil => rfl
  | cons d ds ih => rw [defsAddressed, ih, List.map_cons, defAddressed]

/-- Putting addresses in is relabelling every variable by its scopes. -/
theorem addressed_eq_relabel (scopes : Scopes) (e : NamedExpr) :
    e.addressed scopes = e.relabel (fun scopes x => (scopes.address? x.name).getD ⟨0, 0⟩)
      (fun names _ => ⟨names.length⟩) scopes := by
  induction e using Expr.induction generalizing scopes with
  | unary s op e ihe => simp only [addressed, relabel, ihe]
  | binary s op l r ihl ihr => simp only [addressed, relabel, ihl, ihr]
  | app s e args ihe ihargs =>
    simp only [addressed, relabel, listAddressed_eq, listRelabel_eq, ihe]
    rw [List.map_congr_left (fun e he => ihargs e he scopes)]
  | map s params layout body ih => simp only [addressed, relabel, ih, List.length_map]
  | cond s t a b iht iha ihb => simp only [addressed, relabel, iht, iha, ihb]
  | letIn s kind defs layout body ihdefs ihbody =>
    have hdefs : ∀ scopes, defsAddressed scopes defs = defsRelabel
        (fun scopes x => (scopes.address? x.name).getD ⟨0, 0⟩) (fun names _ => ⟨names.length⟩)
        scopes defs := by
      intro scopes
      rw [defsAddressed_eq, defsRelabel_eq]
      exact List.map_congr_left (fun d hd => congrArg (Prod.mk d.1) (ihdefs d hd scopes))
    cases kind <;> simp only [addressed, relabel, hdefs, ihbody, LetKind.around, defNames,
      List.length_map]
  | block s es ihes =>
    simp only [addressed, relabel, listAddressed_eq, listRelabel_eq]
    rw [List.map_congr_left (fun e he => ihes e he scopes)]
  | _ => rfl

end Expr

/-! ## Addresses -/

namespace Scopes

/-- The name at an address: the declaration `offset` of the form `depth` forms outward. -/
def nameAt? (scopes : Scopes) (a : Address) : Option String :=
  scopes[a.depth]?.bind (fun names => names[a.offset]?)

/-- The address is that of the innermost declaration of the name: it is at the address, and every
other declaration of it belongs to a form further outward. -/
structure Innermost (scopes : Scopes) (x : String) (a : Address) : Prop where
  denotes : scopes.nameAt? a = some x
  nearest : ∀ b, scopes.nameAt? b = some x → b = a ∨ a.depth < b.depth

/-- The address that is found is that of the innermost declaration. -/
theorem innermost_of_address? {scopes : Scopes} (hscopes : ∀ names ∈ scopes, names.Nodup)
    {x : String} {a : Address} (ha : scopes.address? x = some a) : scopes.Innermost x a := by
  induction scopes generalizing a with
  | nil => cases ha
  | cons names outer ih =>
    rw [address?] at ha
    rcases hi : names.idxOf? x with _ | i
    · rw [hi] at ha
      obtain ⟨a', ha', rfl⟩ := Option.map_eq_some_iff.mp ha
      obtain ⟨hdenotes, hnearest⟩ := ih (fun names h => hscopes names (.tail _ h)) ha'
      have hx : x ∉ names := List.idxOf?_eq_none_iff.mp hi
      refine ⟨hdenotes, ?_⟩
      rintro ⟨depth, offset⟩ hb
      cases depth with
      | zero => exact absurd (List.mem_of_getElem? hb) hx
      | succ depth =>
        rcases hnearest ⟨depth, offset⟩ hb with rfl | hlt
        · exact .inl rfl
        · exact .inr (Nat.succ_lt_succ hlt)
    · rw [hi] at ha
      cases ha
      obtain ⟨hlt, heq, -⟩ := List.idxOf?_eq_some_iff.mp hi
      have hname : names[i]? = some x := List.getElem?_eq_some_iff.mpr ⟨hlt, heq⟩
      refine ⟨hname, ?_⟩
      rintro ⟨depth, offset⟩ hb
      cases depth with
      | zero =>
        have hoffset : i = offset :=
          (List.getElem?_inj hlt (hscopes names (.head _))).mp (hname.trans hb.symm)
        exact .inl (by rw [hoffset])
      | succ depth => exact .inr (Nat.succ_pos _)

end Scopes

/-! ## The result of resolving -/

/-- The program with every variable reduced to its name; where the name was written at the
variable is forgotten. -/
def Expr.spelled (p : NamedExpr) : Expr (Option String) Unit :=
  p.relabel (fun _ x => some x.name) (fun _ l => l) []

/-- The program with every address replaced by the name it denotes where it stands. -/
def Expr.named (r : AddressedExpr) : Expr (Option String) Unit :=
  r.relabel Scopes.nameAt? (fun _ _ => ()) []

/-- Resolving succeeds exactly if every variable is declared by a form around it and no form
declares a name twice. The resolved program is then the program but for its variables and
layouts: with names for addresses it is the program again, every address is that of the innermost
declaration of its name, and every form has as many slots as it declares names. -/
theorem resolve_lexical (p : NamedExpr) :
    ((∃ r, p.resolve = .ok r) ↔
      (∀ o ∈ p.occurrences [], ∃ names ∈ o.1, o.2.name ∈ names) ∧
        ∀ d ∈ p.bindingForms, d.1.Nodup) ∧
    ∀ r, p.resolve = .ok r →
      r.named = p.spelled ∧ (∀ o ∈ r.occurrences [], ∃ x, o.1.Innermost x o.2) ∧
        ∀ d ∈ r.bindingForms, d.2.slots = d.1.length := by
  have hfaults := Expr.scopeFaults_eq_nil_iff_declared [] p
  refine ⟨?_, fun r hr => ?_⟩
  · simp only [Expr.resolve_eq_ok_iff, exists_and_left, exists_eq', and_true]
    exact hfaults
  · obtain ⟨hnil, rfl⟩ := Expr.resolve_eq_ok_iff.mp hr
    obtain ⟨hdeclared, hforms⟩ := hfaults.mp hnil
    -- at every variable, the address that was put there is that of the innermost declaration
    have hinnermost : ∀ o ∈ p.occurrences [],
        o.1.Innermost o.2.name ((o.1.address? o.2.name).getD ⟨0, 0⟩) := by
      intro o ho
      have hsome : (o.1.address? o.2.name).isSome :=
        Scopes.isSome_address?.mpr (List.mem_flatten.mpr (hdeclared o ho))
      obtain ⟨a, ha⟩ := Option.isSome_iff_exists.mp hsome
      have hnodup := Expr.forall_names_of_mem_occurrences [] p nofun hforms o ho
      rw [ha]
      exact Scopes.innermost_of_address? hnodup ha
    rw [Expr.addressed_eq_relabel]
    refine ⟨?_, ?_, ?_⟩
    · rw [Expr.named, Expr.relabel_relabel]
      exact Expr.relabel_congr _ [] p (fun o ho => (hinnermost o ho).denotes)
    · rw [Expr.occurrences_relabel]
      simp only [List.forall_mem_map]
      exact fun o ho => ⟨_, hinnermost o ho⟩
    · rw [Expr.bindingForms_relabel]
      simp only [List.forall_mem_map, implies_true]

/-- `letrec x := map to x(); in let x := x; y := x; in map x to y(x)` -/
def shadowing : NamedExpr :=
  let x : Ident := .synthetic "x"
  let y : Ident := .synthetic "y"
  .letIn .synthetic .recursive [(x, .map .synthetic [] () (.mkApp (.mkVar x) []))] ()
    (.letIn .synthetic .plain [(x, .mkVar x), (y, .mkVar x)] ()
      (.map .synthetic [x] () (.mkApp (.mkVar y) [.mkVar x])))

/-- A function without parameters counts as a form, and the definitions of a `let` are outside of
it. -/
theorem resolve_shadowing : ∃ r, shadowing.resolve = .ok r ∧
    (r.occurrences []).map Prod.snd = [⟨1, 0⟩, ⟨0, 0⟩, ⟨0, 0⟩, ⟨1, 1⟩, ⟨0, 0⟩] ∧
      r.named = shadowing.spelled ∧ (∀ o ∈ r.occurrences [], ∃ x, o.1.Innermost x o.2) ∧
        ∀ d ∈ r.bindingForms, d.2.slots = d.1.length := by
  have hr : shadowing.resolve = .ok (shadowing.addressed []) := by
    rw [Expr.resolve_eq_ok_iff]
    exact ⟨by decide, rfl⟩
  exact ⟨_, hr, by decide, (resolve_lexical shadowing).2 _ hr⟩

end Mapling
