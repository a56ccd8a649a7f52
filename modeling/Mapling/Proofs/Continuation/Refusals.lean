import Mapling.Proofs.Continuation.TailCalls

/-! # What conversion refuses

A program is refused exactly if somewhere in it, be it in the body of a function, a recursive form
defines a name by a value that is not simple (`toCps_rejects`). The report names one definition of
each such form that is not inside of another one: the conversion rewrites operators, moves operands
into temporaries and goes on after a value before it comes to the value, but it comes to every part
of the program once. -/

namespace Mapling

variable {es : List NamedExpr} {defs : List (Ident × NamedExpr)} {s : Span} {e : NamedExpr}

namespace Expr

open Conversion

/-! ## Parts of a program -/

theorem allRefusals_eq_nil : allRefusals es = [] ↔ ∀ e ∈ es, e.refusals = [] := by
  induction es with
  | nil => simp [allRefusals]
  | cons e es ih => simp [allRefusals, ih]

theorem defsRefusals_eq_nil : defsRefusals defs = [] ↔ ∀ d ∈ defs, d.2.refusals = [] := by
  induction defs with
  | nil => simp [defsRefusals]
  | cons d ds ih =>
    obtain ⟨x, e⟩ := d
    simp [defsRefusals, defRefusals, ih]

/-- Nothing is refused of a form of definitions if nothing is refused of its parts and it is not
refused itself. -/
theorem refusals_letIn_eq_nil {kind : LetKind} {body : NamedExpr} :
    (Expr.letIn s kind defs () body : NamedExpr).refusals = [] ↔
      (kind = .recursive → defsSimple defs) ∧ defsRefusals defs = [] ∧ body.refusals = [] := by
  cases kind with
  | plain => simp [refusals]
  | recursive =>
    rw [refusals, ← firstNonSimple_eq_none_iff]
    cases firstNonSimple defs <;> simp

variable {q : NamedExpr} {last : Bool}

/-- Where nothing is refused nothing is refused of a part. -/
theorem Occurs.refusals_eq_nil (h : Occurs q last e) (hq : q.refusals = []) : e.refusals = [] := by
  induction h with
  | root => exact hq
  | operand _ ih => exact ih
  | left _ ih => exact (List.append_eq_nil_iff.mp ih).1
  | right _ ih => exact (List.append_eq_nil_iff.mp ih).2
  | operator _ ih => exact (List.append_eq_nil_iff.mp ih).1
  | argument _ he ih => exact allRefusals_eq_nil.mp (List.append_eq_nil_iff.mp ih).2 _ he
  | function _ ih => exact ih
  | test _ ih => exact (List.append_eq_nil_iff.mp ih).1
  | thenBranch _ ih => exact (List.append_eq_nil_iff.mp (List.append_eq_nil_iff.mp ih).2).1
  | elseBranch _ ih => exact (List.append_eq_nil_iff.mp (List.append_eq_nil_iff.mp ih).2).2
  | value _ he ih => exact defsRefusals_eq_nil.mp (refusals_letIn_eq_nil.mp ih).2.1 _ he
  | body _ ih => exact (refusals_letIn_eq_nil.mp ih).2.2
  | component _ ih => exact allRefusals_eq_nil.mp ih _ (by simp)
  | lastComponent _ ih => exact allRefusals_eq_nil.mp ih _ (by simp)

/-- The components of a block are parts of it, the last one like the others. -/
theorem Occurs.of_mem (h : Occurs q last (.block s es)) (he : e ∈ es) :
    ∃ last, Occurs q last e := by
  obtain ⟨before, after, rfl⟩ := List.append_of_mem he
  cases after with
  | nil => exact ⟨_, .lastComponent h⟩
  | cons e' after => exact ⟨_, .component h⟩

/-- All recursive forms of the program define names by simple values. -/
def DefinesSimply (q : NamedExpr) : Prop :=
  ∀ {last s defs body}, Occurs q last (.letIn s .recursive defs () body) → defsSimple defs

mutual

/-- Where only simple values are defined recursively, nothing is refused. -/
theorem DefinesSimply.refusals (hq : DefinesSimply q) : (e : NamedExpr) → {last : Bool} →
    Occurs q last e → e.refusals = []
  | .int _ _, _, _ | .bool _ _, _, _ | .null _, _, _ | .var _ _, _, _ | .prim _ _, _, _ => rfl
  | .unary _ _ e, _, h => hq.refusals e (.operand h)
  | .binary _ _ l r, _, h => List.append_eq_nil_iff.mpr
    ⟨hq.refusals l (.left h), hq.refusals r (.right h)⟩
  | .app _ f args, _, h => List.append_eq_nil_iff.mpr ⟨hq.refusals f (.operator h),
    hq.allRefusals args (fun _ he => ⟨_, .argument h he⟩)⟩
  | .map _ _ _ body, _, h => hq.refusals body (.function h)
  | .cond _ t a b, _, h => List.append_eq_nil_iff.mpr ⟨hq.refusals t (.test h),
    List.append_eq_nil_iff.mpr ⟨hq.refusals a (.thenBranch h),
      hq.refusals b (.elseBranch h)⟩⟩
  | .letIn _ kind defs _ body, _, h => by
    refine refusals_letIn_eq_nil.mpr ⟨?_, ?_, hq.refusals body (.body h)⟩
    · rintro rfl
      exact hq h
    · exact hq.defsRefusals defs (fun _ he => ⟨_, .value h he⟩)
  | .block _ es, _, h => hq.allRefusals es (fun _ he => h.of_mem he)

theorem DefinesSimply.allRefusals (hq : DefinesSimply q) : (es : List NamedExpr) →
    (∀ e ∈ es, ∃ last, Occurs q last e) → Expr.allRefusals es = []
  | [], _ => rfl
  | e :: es, h => by
    obtain ⟨_, he⟩ := h e List.mem_cons_self
    exact List.append_eq_nil_iff.mpr ⟨hq.refusals e he,
      hq.allRefusals es (fun e' he' => h e' (List.mem_cons_of_mem e he'))⟩

theorem DefinesSimply.defsRefusals (hq : DefinesSimply q) : (ds : List (Ident × NamedExpr)) →
    (∀ d ∈ ds, ∃ last, Occurs q last d.2) → Expr.defsRefusals ds = []
  | [], _ => rfl
  | (x, e) :: ds, h => by
    obtain ⟨_, he⟩ := h (x, e) List.mem_cons_self
    exact List.append_eq_nil_iff.mpr ⟨hq.refusals e he,
      hq.defsRefusals ds (fun d hd => h d (List.mem_cons_of_mem _ hd))⟩

end

/-- Something is refused of a program if one of its recursive forms is. -/
theorem refusals_ne_nil_iff : q.refusals ≠ [] ↔
    ∃ last s defs body, Occurs q last (.letIn s .recursive defs () body) ∧
      ∃ d ∈ defs, d.2.isSimple = false := by
  have hbad : ∀ {defs : List (Ident × NamedExpr)},
      (∃ d ∈ defs, d.2.isSimple = false) ↔ ¬defsSimple defs := by
    intro defs
    rw [defsSimple_iff]
    simp
  simp only [hbad]
  constructor
  · intro hne
    by_contra hnone
    refine hne (DefinesSimply.refusals (fun {last s defs body} h => ?_) q .root)
    by_contra hdefs
    exact hnone ⟨last, s, defs, body, h, hdefs⟩
  · rintro ⟨last, s, defs, body, h, hdefs⟩ hnil
    exact hdefs ((refusals_letIn_eq_nil.mp (h.refusals_eq_nil hnil)).1 rfl)

end Expr

/-! ## Programs -/

open Mapling.Expr Conversion

/-- Conversion fails exactly if a recursive form in the program has a definition whose value is not
simple. Then it counts the forms of this kind that are not inside of others, and reports the first
such definition of each, in some order, up to the limit. -/
theorem toCps_rejects (p : NamedExpr) :
    ((∃ r, p.toCps = .error r) ↔
      ∃ last s defs body, Occurs p last (.letIn s .recursive defs () body) ∧
        ∃ d ∈ defs, d.2.isSimple = false) ∧
    ∀ r, p.toCps = .error r → r.total = p.refusals.length ∧
      ∃ ds, r = Report.ofList ds ∧ ds.Perm (p.refusals.map (fun x => Diagnostic.ofCode ⟨600⟩
        ("letrec definition of '" ++ x.name ++ "' must not call a function outside a map body")
        x.span none)) := by
  rw [← refusals_ne_nil_iff]
  rcases toCps_spec p with ⟨hnil, q, n, hq, -⟩ | ⟨hne, xs, hperm, herror⟩
  · rw [hq, hnil]
    exact ⟨by simp, fun r hr => by cases hr⟩
  · refine ⟨iff_of_true ⟨_, herror⟩ hne, fun r hr => ?_⟩
    cases herror.symm.trans hr
    refine ⟨?_, _, rfl, hperm.map _⟩
    rw [Report.total_ofList, List.length_map, hperm.length_eq]

/-- A function that makes two recursive forms, one with a call in a definition and one with two
functions; the first one has a form of its kind inside. -/
def refusedForms : NamedExpr :=
  let x (name : String) : Ident := .synthetic name
  let call (name : String) : NamedExpr := mkApp (mkVar (x name)) []
  let letrec (name : String) (value body : NamedExpr) : NamedExpr :=
    .letIn .synthetic .recursive [(x "f", mkMap [] (call "f")), (x name, value)] () body
  mkMap [x "f"] (.block .synthetic [letrec "a" (letrec "b" (call "f") (mkVar (x "b"))) (call "a"),
    letrec "c" (mkMap [] (call "f")) (letrec "d" (call "c") (call "d"))])

theorem toCps_rejects_refusedForms :
    (∃ r, refusedForms.toCps = .error r) ∧ refusedForms.refusals.map Ident.name = ["a", "d"] := by
  have hnames : refusedForms.refusals.map Ident.name = ["a", "d"] := by decide +kernel
  refine ⟨(toCps_rejects refusedForms).1.mpr (refusals_ne_nil_iff.mp (fun hnil => ?_)), hnames⟩
  rw [hnil] at hnames
  cases hnames

end Mapling
