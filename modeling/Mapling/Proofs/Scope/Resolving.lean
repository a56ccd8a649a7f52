import Mapling.Scope
import Mathlib.Tactic

/-! # What the resolver comes to

The resolver keeps the offsets of the names that the open scopes have declared so far. As long as
no form repeats a name, the offset of a name is its place among the names of its form; a name that
is repeated gets no offset, so the names after it get other offsets than their places. But then
something has been reported, and the tree is thrown away.

So the resolver leaves its scopes as they were, reports the faults of the expression in these
scopes, and, if there are none, gives the expression with addresses (`resolves`). -/

namespace Mapling

variable {x : String} {names seen : List String} {form : BindingForm} {xs : List Ident}
  {scopes : Scopes} {stack : List OpenScope}

/-- A form whose declarations repeat nothing declares different names. -/
theorem nodup_of_repeats_eq_nil (h : repeats form seen xs = []) :
    (xs.map Ident.name).Nodup ∧ ∀ x ∈ xs, x.name ∉ seen := by
  induction xs generalizing seen with
  | nil => simp
  | cons x xs ih =>
    rw [repeats] at h
    split at h
    · cases h
    · rename_i hx
      obtain ⟨hxs, hseen⟩ := ih h
      have hxmem : x.name ∉ xs.map Ident.name := by
        intro hmem
        obtain ⟨y, hy, hyx⟩ := List.mem_map.mp hmem
        have := hseen y hy
        rw [hyx] at this
        exact this (List.mem_cons_self)
      refine ⟨by simpa using ⟨by simpa using hxmem, hxs⟩, ?_⟩
      intro y hy
      rcases List.mem_cons.mp hy with rfl | hy'
      · simpa using hx
      · exact fun hmem => hseen y hy' (List.mem_cons_of_mem _ hmem)

/-! ## Open scopes -/

/-- The scope has declared the names, in this order. -/
structure OpenScope.Declares (s : OpenScope) (names : List String) : Prop where
  mem : ∀ x, (s.offsets.lookup x).isSome ↔ x ∈ names
  length : names.Nodup → s.offsets.length = names.length
  offset : names.Nodup → ∀ x, s.offsets.lookup x = names.idxOf? x

namespace OpenScope

theorem declares_nil (form : BindingForm) : Declares ⟨form, []⟩ [] :=
  ⟨fun _ => by simp, fun _ => rfl, fun _ _ => rfl⟩

theorem form_define (x : String) (s : OpenScope) : (s.define x).2.form = s.form := by
  unfold define
  split <;> rfl

theorem define_eq_none_iff {s : OpenScope} (h : s.Declares names) :
    (s.define x).1 = none ↔ x ∈ names := by
  rw [← h.mem, define]
  split
  · rename_i hx
    exact iff_of_true rfl hx
  · rename_i hx
    exact iff_of_false (Option.some_ne_none _) hx

/-- Declaring a name adds it to the names, whether or not it is there already. -/
theorem Declares.define {s : OpenScope} (h : s.Declares names) (x : String) :
    (s.define x).2.Declares (names ++ [x]) := by
  by_cases hx : x ∈ names
  · -- nothing changes, and the names are not all different
    have hsame : (s.define x).2 = s := by rw [OpenScope.define, if_pos ((h.mem x).mpr hx)]
    have hrepeated : ¬ (names ++ [x]).Nodup := by
      rw [List.nodup_append]
      exact fun hnodup => hnodup.2.2 x hx x (List.mem_singleton_self x) rfl
    rw [hsame]
    refine ⟨fun y => ?_, fun hnodup => absurd hnodup hrepeated,
      fun hnodup => absurd hnodup hrepeated⟩
    rw [h.mem, List.mem_append, List.mem_singleton, or_iff_left_of_imp]
    rintro rfl
    exact hx
  · have hnew : (s.define x).2.offsets = (x, s.offsets.length) :: s.offsets := by
      rw [OpenScope.define, if_neg (fun hsome => hx ((h.mem x).mp hsome))]
    refine ⟨fun y => ?_, fun hnodup => ?_, fun hnodup y => ?_⟩
    · rw [hnew, List.lookup_cons, List.mem_append, List.mem_singleton, ← h.mem]
      by_cases hy : y = x
      · simp only [hy, beq_self_eq_true, Option.isSome_some, or_true]
      · simp only [hy, beq_false_of_ne hy, or_false]
    · rw [hnew, List.length_cons, h.length (List.nodup_append.mp hnodup).1, List.length_append]
      rfl
    · have hnames := (List.nodup_append.mp hnodup).1
      rw [hnew, List.lookup_cons, List.idxOf?, List.findIdx?_append, ← List.idxOf?,
        h.length hnames, h.offset hnames]
      by_cases hy : y = x
      · have hnone : names.idxOf? x = none := List.idxOf?_eq_none_iff.mpr hx
        simp [hy, hnone]
      · rw [beq_false_of_ne hy]
        simp [Ne.symm hy]

/-- Both ways of looking for a declaration find one, and they find the same if the names of each
scope are different. -/
theorem address?_eq (h : List.Forall₂ Declares stack scopes) (x : String) :
    (address? x stack).isSome = (scopes.address? x).isSome ∧
      ((∀ names ∈ scopes, names.Nodup) → address? x stack = scopes.address? x) := by
  induction h with
  | nil => exact ⟨rfl, fun _ => rfl⟩
  | @cons s names stack scopes hs _ ih =>
    rw [address?, Scopes.address?]
    by_cases hx : x ∈ names
    · obtain ⟨i, hi⟩ := Option.isSome_iff_exists.mp ((hs.mem x).mpr hx)
      obtain ⟨j, hj⟩ :=
        Option.ne_none_iff_exists'.mp (mt List.idxOf?_eq_none_iff.mp (not_not.mpr hx))
      rw [hi, hj]
      refine ⟨rfl, fun hnodup => ?_⟩
      rw [hs.offset (hnodup names List.mem_cons_self), hj] at hi
      cases hi
      rfl
    · have hi : s.offsets.lookup x = none :=
        Option.not_isSome_iff_eq_none.mp (mt (hs.mem x).mp hx)
      rw [hi, List.idxOf?_eq_none_iff.mpr hx]
      refine ⟨by simpa using ih.1, fun hnodup => ?_⟩
      rw [ih.2 (fun names hnames => hnodup names (List.mem_cons_of_mem _ hnames))]

end OpenScope

/-! ## Resolving -/

/-- One report after the other. -/
def Report.pushFaults (r : Report) (fs : List (ScopeFault × Span)) : Report :=
  fs.foldl (fun r f => r.push (f.1.diagnostic f.2)) r

theorem Report.pushFaults_append (r : Report) (fs gs : List (ScopeFault × Span)) :
    (r.pushFaults fs).pushFaults gs = r.pushFaults (fs ++ gs) :=
  List.foldl_append.symm

/-- In scopes that declare the names of `scopes`, the computation reports `fs`. If that is nothing
and the names of each scope are different, it gives `a`. -/
def Resolves {α : Type} (act : Resolving α) (scopes : Scopes) (fs : List (ScopeFault × Span))
    (a : α) : Prop :=
  ∀ stack report, List.Forall₂ OpenScope.Declares stack scopes →
    ∃ a', act.run ⟨stack, report⟩ = (a', ⟨stack, report.pushFaults fs⟩) ∧
      (fs = [] → (∀ names ∈ scopes, names.Nodup) → a' = a)

namespace Resolves

variable {α β : Type} {act : Resolving α} {a : α} {fs gs : List (ScopeFault × Span)}

theorem pure (a : α) : Resolves (Pure.pure a) scopes [] a :=
  fun _ _ _ => ⟨a, rfl, fun _ _ => rfl⟩

theorem bind {f : α → Resolving β} {g : α → β} (h : Resolves act scopes fs a)
    (hf : ∀ a, Resolves (f a) scopes gs (g a)) : Resolves (act >>= f) scopes (fs ++ gs) (g a) := by
  intro stack report hstack
  obtain ⟨a', hrun, ha⟩ := h stack report hstack
  obtain ⟨b, hrun', hb⟩ := hf a' stack (report.pushFaults fs) hstack
  refine ⟨b, ?_, fun hnil hnodup => ?_⟩
  · rw [StateT.run_bind, hrun, ← Report.pushFaults_append]
    exact hrun'
  · obtain ⟨hfs, hgs⟩ := List.append_eq_nil_iff.mp hnil
    rw [hb hgs hnodup, ha hfs hnodup]

theorem map (h : Resolves act scopes fs a) (g : α → β) :
    Resolves (do return g (← act)) scopes fs (g a) := by
  have hpure : ∀ a, Resolves (Pure.pure (g a)) scopes [] (g a) := fun a => pure (g a)
  have hbind := h.bind hpure
  rwa [List.append_nil] at hbind

/-- The names that a form declares get in, and the ones that are there already are reported. -/
theorem declareAll (xs : List Ident) {s : OpenScope} (hs : s.Declares names)
    (hseen : ∀ x, x ∈ seen ↔ x ∈ names) (report : Report) :
    ∃ s', (Resolver.declareAll xs).run ⟨s :: stack, report⟩ =
        ((), ⟨s' :: stack, report.pushFaults (repeats s.form seen xs)⟩) ∧
      s'.Declares (names ++ xs.map Ident.name) := by
  induction xs generalizing s names seen report with
  | nil => exact ⟨s, rfl, by simpa using hs⟩
  | cons x xs ih =>
    have hstep : (Resolver.declareAll (x :: xs)).run ⟨s :: stack, report⟩ =
        (Resolver.declareAll xs).run ⟨(s.define x.name).2 :: stack,
          if (s.define x.name).1.isNone then
            report.push ((ScopeFault.repeated x.name (s.define x.name).2.form).diagnostic x.span)
          else report⟩ := by
      rcases hdefine : s.define x.name with ⟨_ | i, s'⟩ <;>
        simp [Resolver.declareAll, Resolver.fault, hdefine]
    rw [hstep, repeats, List.map_cons, List.append_cons, OpenScope.form_define]
    by_cases hx : x.name ∈ names
    · have hnone := (OpenScope.define_eq_none_iff hs).mpr hx
      have hseen' : ∀ y, y ∈ seen ↔ y ∈ names ++ [x.name] := by
        intro y
        rw [hseen, List.mem_append, List.mem_singleton, or_iff_left_of_imp]
        rintro rfl
        exact hx
      obtain ⟨s', hrun, hs'⟩ := ih (hs.define x.name) hseen' (report.push
        ((ScopeFault.repeated x.name s.form).diagnostic x.span))
      refine ⟨s', ?_, hs'⟩
      rw [hnone, Option.isNone_none, if_pos rfl,
        if_pos (List.contains_iff_mem.mpr ((hseen _).mpr hx)),
        hrun, OpenScope.form_define]
      rfl
    · have hsome := mt (OpenScope.define_eq_none_iff hs).mp hx
      have hseen' : ∀ y, y ∈ x.name :: seen ↔ y ∈ names ++ [x.name] := by
        intro y
        rw [List.mem_cons, hseen, List.mem_append, List.mem_singleton, or_comm]
      obtain ⟨s', hrun, hs'⟩ := ih (hs.define x.name) hseen' report
      refine ⟨s', ?_, hs'⟩
      rw [if_neg (mt Option.isNone_iff_eq_none.mp hsome),
        if_neg (mt List.contains_iff_mem.mp (mt (hseen _).mp hx)), hrun, OpenScope.form_define]

/-- What is done in a scope of its own. -/
theorem inScope (form : BindingForm) (xs : List Ident)
    (h : Resolves act (xs.map Ident.name :: scopes) fs a) :
    Resolves (Resolver.inScope form xs act) scopes (repeats form [] xs ++ fs) a := by
  intro stack report hstack
  obtain ⟨s, hdeclare, hs⟩ : ∃ s, (Resolver.declareAll xs).run ⟨⟨form, []⟩ :: stack, report⟩ =
      ((), ⟨s :: stack, report.pushFaults (repeats form [] xs)⟩) ∧
        s.Declares ([] ++ xs.map Ident.name) :=
    declareAll xs (OpenScope.declares_nil form) (fun _ => Iff.rfl) report
  obtain ⟨a', hrun, ha⟩ :=
    h (s :: stack) (report.pushFaults (repeats form [] xs)) (.cons hs hstack)
  refine ⟨a', ?_, fun hnil hnodup => ?_⟩
  · simp only [Resolver.inScope, StateT.run_bind, StateT.run_modify, pure_bind]
    rw [hdeclare]
    change (act.run ⟨s :: stack, report.pushFaults (repeats form [] xs)⟩ >>= fun p => _) = _
    rw [hrun, ← Report.pushFaults_append]
    rfl
  · obtain ⟨hrepeats, hfs⟩ := List.append_eq_nil_iff.mp hnil
    exact ha hfs (List.forall_mem_cons.mpr ⟨(nodup_of_repeats_eq_nil hrepeats).1, hnodup⟩)

/-- A name is given its address, or reported if it has none. -/
theorem addressOf (x : Ident) :
    Resolves (Resolver.addressOf x) scopes
      (if (scopes.address? x.name).isSome then [] else [(.unbound x.name, x.span)])
      ((scopes.address? x.name).getD ⟨0, 0⟩) := by
  intro stack report hstack
  obtain ⟨hfound, hsame⟩ := OpenScope.address?_eq hstack x.name
  rw [← hfound]
  cases haddress : OpenScope.address? x.name stack with
  | some address =>
    refine ⟨address, ?_, fun _ hnodup => ?_⟩
    · simp only [Resolver.addressOf, StateT.run_bind, StateT.run_get, pure_bind, haddress]
      rfl
    · rw [← hsame hnodup, haddress]
      rfl
  | none =>
    refine ⟨⟨0, 0⟩, ?_, fun hnil => by cases hnil⟩
    simp only [Resolver.addressOf, StateT.run_bind, StateT.run_get, pure_bind, haddress]
    rfl

end Resolves

namespace Expr

open Resolves

mutual

/-- The resolver reports the faults of an expression, and gives the expression with addresses if
there are none. -/
theorem resolves (scopes : Scopes) :
    (e : NamedExpr) → Resolves (resolving e) scopes (scopeFaults scopes e) (addressed scopes e)
  | .int s n => pure _
  | .bool s b => pure _
  | .null s => pure _
  | .prim s p => pure _
  | .var s x => (Resolves.addressOf x).map _
  | .unary s op e => (resolves scopes e).map _
  | .binary s op l r => (resolves scopes l).bind fun _ => (resolves scopes r).map _
  | .app s f args => (resolves scopes f).bind fun _ => (listResolves scopes args).map _
  | .map s params _ body => (inScope .params params (resolves _ body)).map _
  | .cond s t a b => by
    have h := (resolves scopes t).bind fun t => (resolves scopes a).bind fun a =>
      (resolves scopes b).map (Expr.cond s t a)
    rwa [← List.append_assoc] at h
  | .letIn s .plain defs _ body => by
    have h := (defsResolves scopes defs).bind fun ds =>
      (inScope (.defs .plain) (defs.map Prod.fst) (resolves _ body)).map
        (Expr.letIn s .plain ds ⟨defs.length⟩)
    rw [← List.append_assoc, List.map_map] at h
    exact h
  | .letIn s .recursive defs _ body => by
    have h := inScope (.defs .recursive) (defs.map Prod.fst)
      ((defsResolves (_ :: scopes) defs).bind fun ds =>
        (resolves _ body).map (Expr.letIn s .recursive ds ⟨defs.length⟩))
    rw [← List.append_assoc, List.map_map] at h
    exact h
  | .block s es => (listResolves scopes es).map _

theorem listResolves (scopes : Scopes) : (es : List NamedExpr) →
    Resolves (listResolving es) scopes (listFaults scopes es) (listAddressed scopes es)
  | [] => pure _
  | e :: es => (resolves scopes e).bind fun _ => (listResolves scopes es).map _

theorem defsResolves (scopes : Scopes) : (ds : List (Ident × NamedExpr)) →
    Resolves (defsResolving ds) scopes (defsFaults scopes ds) (defsAddressed scopes ds)
  | [] => pure _
  | d :: ds => (defResolves scopes d).bind fun _ => (defsResolves scopes ds).map _

theorem defResolves (scopes : Scopes) : (d : Ident × NamedExpr) →
    Resolves (defResolving d) scopes (defFaults scopes d) (defAddressed scopes d)
  | (_, e) => (resolves scopes e).map _

end

/-- What the resolver comes to for a closed program. -/
theorem resolve_eq (e : NamedExpr) : e.resolve =
    match e.scopeFaults [] with
    | [] => .ok (e.addressed [])
    | faults => .error (Report.ofList (faults.map (fun f => f.1.diagnostic f.2))) := by
  obtain ⟨e', hrun, he⟩ := e.resolves [] [] .empty .nil
  rw [resolve, Resolver.start, hrun]
  have hreport : Report.empty.pushFaults (e.scopeFaults []) =
      .ofList ((e.scopeFaults []).map (fun f => f.1.diagnostic f.2)) := by
    rw [Report.ofList, List.foldl_map]
    rfl
  simp only [Report.hasErrors, hreport, Report.total_ofList, List.length_map]
  cases hfaults : e.scopeFaults [] with
  | nil => simp [he hfaults (by simp)]
  | cons f fs => simp

end Expr

end Mapling
