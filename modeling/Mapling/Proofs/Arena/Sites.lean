import Mapling.Arena.Site
import Mapling.Expr.Text
import Mathlib.Tactic

/-! # Numbered programs

The numbers of its binding forms change nothing else about a program (`unsited_sited`,
`text_unsited`). Where the forms with one number have the same body, or the same names, what is
remembered under the number is right for all of them (`SharedProgram`), except that maps with the
same body may have different parameters. No two forms of a program in which nothing is shared have
the same number (`nodup_sited`). -/

namespace Mapling

/-- What is remembered under the number of a binding form. -/
inductive Form where
  | function (params : List Ident) (body : SitedExpr)
  | names (names : List Ident)

namespace Expr

mutual

def unsited : SitedExpr → AddressedExpr
  | .int s k => .int s k
  | .bool s b => .bool s b
  | .null s => .null s
  | .var s x => .var s x
  | .prim s p => .prim s p
  | .unary s op e => .unary s op (unsited e)
  | .binary s op l r => .binary s op (unsited l) (unsited r)
  | .app s f args => .app s (unsited f) (unsitedAll args)
  | .map s params site body => .map s params ⟨site.slots⟩ (unsited body)
  | .cond s t a b => .cond s (unsited t) (unsited a) (unsited b)
  | .letIn s kind defs site body => .letIn s kind (unsitedDefs defs) ⟨site.slots⟩ (unsited body)
  | .block s es => .block s (unsitedAll es)

def unsitedAll : List SitedExpr → List AddressedExpr
  | [] => []
  | e :: es => unsited e :: unsitedAll es

def unsitedDefs : List (Ident × SitedExpr) → List (Ident × AddressedExpr)
  | [] => []
  | d :: ds => unsitedDef d :: unsitedDefs ds

def unsitedDef : Ident × SitedExpr → Ident × AddressedExpr
  | (x, e) => (x, unsited e)

end

mutual

def forms : SitedExpr → List (Nat × Form)
  | .int _ _ | .bool _ _ | .null _ | .var _ _ | .prim _ _ => []
  | .unary _ _ e => forms e
  | .binary _ _ l r => forms l ++ forms r
  | .app _ f args => forms f ++ formsAll args
  | .map _ params site body => (site.number, .function params body) :: forms body
  | .cond _ t a b => forms t ++ forms a ++ forms b
  | .letIn _ _ defs site body =>
    (site.number, .names (defs.map Prod.fst)) :: (formsDefs defs ++ forms body)
  | .block _ es => formsAll es

def formsAll : List SitedExpr → List (Nat × Form)
  | [] => []
  | e :: es => forms e ++ formsAll es

def formsDefs : List (Ident × SitedExpr) → List (Nat × Form)
  | [] => []
  | d :: ds => formsDef d ++ formsDefs ds

def formsDef : Ident × SitedExpr → List (Nat × Form)
  | (_, e) => forms e

end

/-! ## Lists of expressions -/

theorem length_unsitedAll (es : List SitedExpr) : (unsitedAll es).length = es.length := by
  induction es with
  | nil => rfl
  | cons e es ih => simp [unsitedAll, ih]

theorem defNames_unsitedDefs (ds : List (Ident × SitedExpr)) :
    defNames (unsitedDefs ds) = (ds.map Prod.fst).map Ident.name := by
  induction ds with
  | nil => rfl
  | cons d ds ih =>
    obtain ⟨x, e⟩ := d
    simp only [unsitedDefs, unsitedDef, defNames, List.map_cons] at ih ⊢
    rw [ih]

theorem defValues_unsitedDefs (ds : List (Ident × SitedExpr)) :
    defValues (unsitedDefs ds) = unsitedAll (defValues ds) := by
  induction ds with
  | nil => rfl
  | cons d ds ih =>
    obtain ⟨x, e⟩ := d
    simp only [unsitedDefs, unsitedDef, defValues, List.map_cons, unsitedAll] at ih ⊢
    rw [ih]

theorem formsAll_defValues (ds : List (Ident × SitedExpr)) :
    formsAll (defValues ds) = formsDefs ds := by
  induction ds with
  | nil => rfl
  | cons d ds ih =>
    obtain ⟨x, e⟩ := d
    simp only [formsDefs, formsDef, defValues, List.map_cons, formsAll] at ih ⊢
    rw [ih]

/-! ## Numbering changes nothing else -/

mutual

theorem unsited_sited (n : Nat) : (e : AddressedExpr) → unsited (e.sited n).1 = e
  | .int _ _ | .bool _ _ | .null _ | .var _ _ | .prim _ _ => by simp [sited, unsited]
  | .unary _ _ e => by simp [sited, unsited, unsited_sited n e]
  | .binary _ _ l r => by simp [sited, unsited, unsited_sited _ l, unsited_sited _ r]
  | .app _ f args => by simp [sited, unsited, unsited_sited _ f, unsitedAll_sitedAll _ args]
  | .map _ _ _ body => by simp [sited, unsited, unsited_sited _ body]
  | .cond _ t a b => by
    simp [sited, unsited, unsited_sited _ t, unsited_sited _ a, unsited_sited _ b]
  | .letIn _ _ defs _ body => by
    simp [sited, unsited, unsitedDefs_sitedDefs _ defs, unsited_sited _ body]
  | .block _ es => by simp [sited, unsited, unsitedAll_sitedAll _ es]

theorem unsitedAll_sitedAll (n : Nat) :
    (es : List AddressedExpr) → unsitedAll (sitedAll n es).1 = es
  | [] => by simp [sitedAll, unsitedAll]
  | e :: es => by simp [sitedAll, unsitedAll, unsited_sited _ e, unsitedAll_sitedAll _ es]

theorem unsitedDefs_sitedDefs (n : Nat) :
    (ds : List (Ident × AddressedExpr)) → unsitedDefs (sitedDefs n ds).1 = ds
  | [] => by simp [sitedDefs, unsitedDefs]
  | d :: ds => by
    simp [sitedDefs, unsitedDefs, unsitedDef_sitedDef _ d, unsitedDefs_sitedDefs _ ds]

theorem unsitedDef_sitedDef (n : Nat) :
    (d : Ident × AddressedExpr) → unsitedDef (sitedDef n d).1 = d
  | (_, e) => by simp [sitedDef, unsitedDef, unsited_sited _ e]

end

theorem isBareOperand_unsited (e : SitedExpr) : (unsited e).isBareOperand = e.isBareOperand := by
  cases e <;> simp [unsited, isBareOperand, isAtom]

mutual

/-- The numbers of binding forms are not written. -/
theorem text_unsited : (e : SitedExpr) → (unsited e).text = e.text
  | .int _ _ | .bool _ _ | .null _ | .var _ _ | .prim _ _ => by simp [unsited, text]
  | .unary _ _ e => by simp [unsited, text, text_unsited e, isBareOperand_unsited]
  | .binary _ _ l r => by
    simp [unsited, text, text_unsited l, text_unsited r, isBareOperand_unsited]
  | .app _ f args => by
    simp [unsited, text, text_unsited f, texts_unsitedAll args, isBareOperand_unsited]
  | .map _ _ _ body => by simp [unsited, text, text_unsited body]
  | .cond _ t a b => by simp [unsited, text, text_unsited t, text_unsited a, text_unsited b]
  | .letIn _ _ defs _ body => by
    simp [unsited, text, defsText_unsitedDefs defs, text_unsited body]
  | .block _ es => by simp [unsited, text, texts_unsitedAll es]

theorem texts_unsitedAll : (es : List SitedExpr) → texts (unsitedAll es) = texts es
  | [] => by simp [unsitedAll, texts]
  | e :: es => by simp [unsitedAll, texts, text_unsited e, texts_unsitedAll es]

theorem defsText_unsitedDefs :
    (ds : List (Ident × SitedExpr)) → defsText (unsitedDefs ds) = defsText ds
  | [] => by simp [unsitedDefs, defsText]
  | d :: ds => by simp [unsitedDefs, defsText, defText_unsitedDef d, defsText_unsitedDefs ds]

theorem defText_unsitedDef : (d : Ident × SitedExpr) → defText (unsitedDef d) = defText d
  | (_, e) => by simp [unsitedDef, defText, text_unsited e]

end

/-! ## No number is used twice -/

/-- The forms have consecutive numbers from `n` up to `m`. -/
def NumberedFrom (n m : Nat) (forms : List (Nat × Form)) : Prop :=
  n ≤ m ∧ forms.map Prod.fst = List.range' n (m - n)

theorem NumberedFrom.nil (n : Nat) : NumberedFrom n n [] := ⟨le_rfl, by simp⟩

theorem NumberedFrom.append {n m k : Nat} {xs ys : List (Nat × Form)} (hx : NumberedFrom n m xs)
    (hy : NumberedFrom m k ys) : NumberedFrom n k (xs ++ ys) := by
  obtain ⟨hnm, hx⟩ := hx
  obtain ⟨hmk, hy⟩ := hy
  refine ⟨Nat.le_trans hnm hmk, ?_⟩
  have hsplit : k - n = (m - n) + (k - m) := by omega
  have hstart : m = n + (m - n) := by omega
  rw [List.map_append, hx, hy, hsplit, ← List.range'_append_1, ← hstart]

theorem NumberedFrom.cons {n m : Nat} {xs : List (Nat × Form)} (hx : NumberedFrom (n + 1) m xs)
    (form : Form) : NumberedFrom n m ((n, form) :: xs) := by
  obtain ⟨hnm, hx⟩ := hx
  refine ⟨by omega, ?_⟩
  have hlen : m - n = (m - (n + 1)) + 1 := by omega
  rw [List.map_cons, hx, hlen, List.range'_succ]

mutual

/-- The forms of a tree get the numbers from `n` on, in order. -/
theorem numberedFrom_sited (n : Nat) :
    (e : AddressedExpr) → NumberedFrom n (e.sited n).2 (forms (e.sited n).1)
  | .int _ _ | .bool _ _ | .null _ | .var _ _ | .prim _ _ => by
    simpa [sited, forms] using NumberedFrom.nil n
  | .unary _ _ e => by simpa [sited, forms] using numberedFrom_sited n e
  | .binary _ _ l r => by
    simpa [sited, forms] using (numberedFrom_sited n l).append (numberedFrom_sited _ r)
  | .app _ f args => by
    simpa [sited, forms] using (numberedFrom_sited n f).append (numberedFrom_sitedAll _ args)
  | .map _ params _ body => by
    simpa [sited, forms] using
      (numberedFrom_sited (n + 1) body).cons (.function params (body.sited (n + 1)).1)
  | .cond _ t a b => by
    have h := ((numberedFrom_sited n t).append (numberedFrom_sited _ a)).append
      (numberedFrom_sited _ b)
    simpa [sited, forms] using h
  | .letIn _ _ defs _ body => by
    have h := (numberedFrom_sitedDefs (n + 1) defs).append (numberedFrom_sited _ body)
    simpa [sited, forms] using h.cons (.names ((sitedDefs (n + 1) defs).1.map Prod.fst))
  | .block _ es => by simpa [sited, forms] using numberedFrom_sitedAll n es

theorem numberedFrom_sitedAll (n : Nat) :
    (es : List AddressedExpr) → NumberedFrom n (sitedAll n es).2 (formsAll (sitedAll n es).1)
  | [] => by simpa [sitedAll, formsAll] using NumberedFrom.nil n
  | e :: es => by
    simpa [sitedAll, formsAll] using
      (numberedFrom_sited n e).append (numberedFrom_sitedAll _ es)

theorem numberedFrom_sitedDefs (n : Nat) :
    (ds : List (Ident × AddressedExpr)) →
      NumberedFrom n (sitedDefs n ds).2 (formsDefs (sitedDefs n ds).1)
  | [] => by simpa [sitedDefs, formsDefs] using NumberedFrom.nil n
  | d :: ds => by
    simpa [sitedDefs, formsDefs] using
      (numberedFrom_sitedDef n d).append (numberedFrom_sitedDefs _ ds)

theorem numberedFrom_sitedDef (n : Nat) :
    (d : Ident × AddressedExpr) → NumberedFrom n (sitedDef n d).2 (formsDef (sitedDef n d).1)
  | (_, e) => by simpa [sitedDef, formsDef] using numberedFrom_sited n e

end

theorem nodup_sited (n : Nat) (e : AddressedExpr) :
    ((forms (e.sited n).1).map Prod.fst).Nodup := by
  rw [(numberedFrom_sited n e).2]
  exact List.nodup_range'

/-- Two forms with the same number are the same. -/
theorem form_unique {fs : List (Nat × Form)} (hfs : (fs.map Prod.fst).Nodup) {k : Nat}
    {x y : Form} (hx : (k, x) ∈ fs) (hy : (k, y) ∈ fs) : x = y := by
  have hpair := List.inj_on_of_nodup_map hfs hx hy rfl
  exact (Prod.mk.inj hpair).2

end Expr

/-! ## Shared parts -/

/-- The numbers of forms are identities: maps with the same number have the same body, and
definition forms with the same number define the same names. -/
structure Form.Identified (fs : List (Nat × Form)) : Prop where
  body : ∀ {k params body params' body'}, (k, Form.function params body) ∈ fs →
    (k, Form.function params' body') ∈ fs → body' = body
  names : ∀ {k xs ys}, (k, Form.names xs) ∈ fs → (k, Form.names ys) ∈ fs → ys = xs

def Form.SameArities (fs : List (Nat × Form)) : Prop :=
  ∀ k params body params' body', (k, Form.function params body) ∈ fs →
    (k, Form.function params' body') ∈ fs → params'.length = params.length

section

variable {fs : List (Nat × Form)} (hfs : (fs.map Prod.fst).Nodup)
include hfs

theorem Form.identified_of_nodup : Form.Identified fs := by
  refine ⟨fun hx hy => ?_, fun hx hy => ?_⟩
  · cases Expr.form_unique hfs hx hy
    rfl
  · cases Expr.form_unique hfs hx hy
    rfl

theorem Form.sameArities_of_nodup : Form.SameArities fs := by
  intro k params body params' body' hx hy
  cases Expr.form_unique hfs hx hy
  rfl

end

/-- A program whose maps may share their bodies. -/
structure SharedProgram where
  tree : SitedExpr
  identified : Form.Identified tree.forms

namespace SharedProgram

def unshared (p : SharedProgram) : AddressedExpr := p.tree.unsited

def SameArities (p : SharedProgram) : Prop := Form.SameArities p.tree.forms

def ofTree (e : AddressedExpr) : SharedProgram where
  tree := (e.sited 0).1
  identified := Form.identified_of_nodup (Expr.nodup_sited 0 e)

/-- A tree shares nothing, so that it is its own unshared form. -/
theorem unshared_ofTree (e : AddressedExpr) : (ofTree e).unshared = e :=
  Expr.unsited_sited 0 e

/-- In a tree no two functions have the same number, let alone with different arities. -/
theorem sameArities_ofTree (e : AddressedExpr) : (ofTree e).SameArities :=
  Form.sameArities_of_nodup (Expr.nodup_sited 0 e)

end SharedProgram

end Mapling
