import Mapling.Proofs.Scope.Lexical
import Mathlib

/-! # What resolving reports

A place in a program is given by the way there: at every form one goes to one of the things that
resolving comes to there, which are numbered in the order in which it comes to them (`Visit.next`).
So places are in the order of their ways, compared from the start.

Resolving a program that has faults reports every variable that no form around it declares and
every name that its form has declared before, each once, in the order of their places.

Main statement: `resolve_reports`. -/

namespace Mapling

/-- What resolving comes to: an expression and the names declared around it, those of each form in
order, innermost form first; or a name that a form declares after those in `earlier`. -/
inductive Visit where
  | expr (scopes : Scopes) (e : NamedExpr)
  | name (form : BindingForm) (earlier : List String) (x : Ident)

namespace Visit

def names (form : BindingForm) (earlier : List String) : List Ident → List Visit
  | [] => []
  | x :: xs => .name form earlier x :: names form (earlier ++ [x.name]) xs

/-- What resolving comes to directly below, in order. The names of a form come before its body;
they come before the definitions if these are in the form's scope, and after them otherwise. -/
def next : Visit → List Visit
  | .name _ _ _ => []
  | .expr scopes e =>
    match e with
    | .int _ _ | .bool _ _ | .null _ | .prim _ _ | .var _ _ => []
    | .unary _ _ e => [.expr scopes e]
    | .binary _ _ l r => [.expr scopes l, .expr scopes r]
    | .app _ f args => .expr scopes f :: args.map (.expr scopes)
    | .map _ params _ body =>
      names .params [] params ++ [.expr (params.map Ident.name :: scopes) body]
    | .cond _ t a b => [.expr scopes t, .expr scopes a, .expr scopes b]
    | .letIn _ .plain defs _ body =>
      defs.map (fun d => .expr scopes d.2) ++ names (.defs .plain) [] (defs.map Prod.fst) ++
        [.expr (Expr.defNames defs :: scopes) body]
    | .letIn _ .recursive defs _ body =>
      names (.defs .recursive) [] (defs.map Prod.fst) ++
        defs.map (fun d => .expr (Expr.defNames defs :: scopes) d.2) ++
        [.expr (Expr.defNames defs :: scopes) body]
    | .block _ es => es.map (.expr scopes)

def at? : Visit → List Nat → Option Visit
  | v, [] => some v
  | v, i :: place => v.next[i]?.bind (fun w => w.at? place)

def fault? : Visit → Option (ScopeFault × Span)
  | .expr scopes (.var _ x) =>
    if scopes.any (·.contains x.name) then none else some (.unbound x.name, x.span)
  | .name form earlier x =>
    if earlier.contains x.name then some (.repeated x.name form, x.span) else none
  | _ => none

def faultAt (v : Visit) (place : List Nat) : Option (ScopeFault × Span) :=
  (v.at? place).bind fault?

def faultBelow (vs : List Visit) : List Nat → Option (ScopeFault × Span)
  | [] => none
  | i :: place => vs[i]?.bind (fun v => v.faultAt place)

theorem faultAt_cons (v : Visit) (i : Nat) (place : List Nat) :
    v.faultAt (i :: place) = faultBelow v.next (i :: place) := by
  rw [faultAt, at?, faultBelow]
  cases v.next[i]? <;> rfl

end Visit

/-! ## Places in order -/

/-- The places where something is found, in order, and what is found there. -/
structure Enumerates (look : List Nat → Option (ScopeFault × Span))
    (fs : List (ScopeFault × Span)) (places : List (List Nat)) : Prop where
  sorted : places.Pairwise (· < ·)
  found : places.map look = fs.map some
  complete : ∀ place, look place ≠ none → place ∈ places

namespace Enumerates

open Visit

variable {look : List Nat → Option (ScopeFault × Span)} {fs fs' : List (ScopeFault × Span)}
  {places places' : List (List Nat)} {v : Visit} {vs : List Visit}

theorem ne_none (h : Enumerates look fs places) {place : List Nat} (hp : place ∈ places) :
    look place ≠ none := by
  have hmem : look place ∈ fs.map some := h.found ▸ List.mem_map_of_mem hp
  obtain ⟨f, -, hf⟩ := List.mem_map.mp hmem
  rw [← hf]
  exact Option.some_ne_none f

def beyond : List Nat → List Nat
  | [] => []
  | i :: place => (i + 1) :: place

theorem beyond_lt_beyond {p q : List Nat} (h : p < q) : beyond p < beyond q := by
  cases p with
  | nil =>
    cases q with
    | nil => exact absurd h (List.lt_irrefl [])
    | cons j q => exact List.nil_lt_cons _ _
  | cons i p =>
    cases q with
    | nil => exact absurd h (List.not_lt_nil _)
    | cons j q =>
      rw [List.cons_lt_cons_iff] at h
      rw [beyond, beyond, List.cons_lt_cons_iff]
      exact h.imp Nat.succ_lt_succ (And.imp_left (congrArg Nat.succ))

theorem nil : Enumerates (faultBelow []) [] [] :=
  ⟨.nil, rfl, fun place h => by cases place <;> exact absurd rfl h⟩

/-- The places below the first visit come before those below the others. -/
theorem cons (h : Enumerates v.faultAt fs places) (h' : Enumerates (faultBelow vs) fs' places') :
    Enumerates (faultBelow (v :: vs)) (fs ++ fs') (places.map (0 :: ·) ++ places'.map beyond) := by
  have hbeyond : ∀ p, faultBelow (v :: vs) (beyond p) = faultBelow vs p := by
    intro p
    cases p <;> rfl
  refine ⟨?_, ?_, ?_⟩
  · rw [List.pairwise_append, List.pairwise_map, List.pairwise_map]
    refine ⟨h.sorted.imp (fun hlt => ?_), h'.sorted.imp beyond_lt_beyond, ?_⟩
    · exact List.cons_lt_cons_iff.mpr (.inr ⟨rfl, hlt⟩)
    · simp only [List.forall_mem_map]
      intro p _ q hq
      cases q with
      | nil => exact absurd rfl (h'.ne_none hq)
      | cons i q => exact List.cons_lt_cons_iff.mpr (.inl (Nat.succ_pos i))
  · rw [List.map_append, List.map_map, List.map_map, List.map_append, ← h.found, ← h'.found]
    exact congrArg₂ _ rfl (List.map_congr_left (fun p _ => hbeyond p))
  · intro place hplace
    rw [List.mem_append, List.mem_map, List.mem_map]
    rcases place with _ | ⟨_ | i, p⟩
    · exact absurd rfl hplace
    · exact .inl ⟨p, h.complete p hplace, rfl⟩
    · exact .inr ⟨i :: p, h'.complete (i :: p) hplace, rfl⟩

/-- What is wrong with a visit itself comes before what is wrong below it. -/
theorem visit (h : Enumerates (faultBelow v.next) fs places) :
    ∃ places', Enumerates v.faultAt (v.fault?.toList ++ fs) places' := by
  have hbelow : ∀ p ∈ places, v.faultAt p = faultBelow v.next p := by
    intro p hp
    cases p with
    | nil => exact absurd rfl (h.ne_none hp)
    | cons i p => exact faultAt_cons v i p
  have hcomplete : ∀ i p, v.faultAt (i :: p) ≠ none → i :: p ∈ places := fun i p hp =>
    h.complete (i :: p) (faultAt_cons v i p ▸ hp)
  cases hv : v.fault? with
  | none =>
    refine ⟨places, h.sorted, (List.map_congr_left hbelow).trans h.found, fun place hp => ?_⟩
    cases place with
    | nil => exact absurd hv hp
    | cons i p => exact hcomplete i p hp
  | some f =>
    refine ⟨[] :: places, List.pairwise_cons.mpr ⟨fun p hp => ?_, h.sorted⟩, ?_, fun place hp => ?_⟩
    · cases p with
      | nil => exact absurd rfl (h.ne_none hp)
      | cons i p => exact List.nil_lt_cons i p
    · rw [List.map_cons, List.map_congr_left hbelow, h.found]
      exact congrArg (· :: _) hv
    · cases place with
      | nil => exact List.mem_cons_self
      | cons i p => exact List.mem_cons_of_mem _ (hcomplete i p hp)

end Enumerates

/-! ## Faults and places -/

/-- The faults at and below a visit, in the order of their places. -/
def Visit.Finds (v : Visit) (fs : List (ScopeFault × Span)) : Prop :=
  ∃ places, Enumerates v.faultAt fs places

def Visit.AllFind (vs : List Visit) (fs : List (ScopeFault × Span)) : Prop :=
  ∃ places, Enumerates (faultBelow vs) fs places

namespace Visit

variable {v : Visit} {vs : List Visit} {fs fs' : List (ScopeFault × Span)} {scopes : Scopes}

theorem AllFind.nil : AllFind [] [] := ⟨[], .nil⟩

theorem AllFind.cons (h : v.Finds fs) (h' : AllFind vs fs') : AllFind (v :: vs) (fs ++ fs') := by
  obtain ⟨places, h⟩ := h
  obtain ⟨places', h'⟩ := h'
  exact ⟨_, h.cons h'⟩

theorem Finds.intro (h : AllFind v.next fs) : v.Finds (v.fault?.toList ++ fs) := by
  obtain ⟨places, h⟩ := h
  exact h.visit

theorem Finds.below (hv : v.fault? = none) (h : AllFind v.next fs) : v.Finds fs := by
  have hfinds := Finds.intro h
  rwa [hv] at hfinds

theorem AllFind.map {α : Type} {as : List α} {f : α → Visit} {g : α → List (ScopeFault × Span)}
    (has : ∀ a ∈ as, (f a).Finds (g a)) (h : AllFind vs fs) :
    AllFind (as.map f ++ vs) (as.flatMap g ++ fs) := by
  induction as with
  | nil => exact h
  | cons a as ih =>
    obtain ⟨ha, has⟩ := List.forall_mem_cons.mp has
    rw [List.flatMap_cons, List.append_assoc]
    exact (AllFind.cons ha (ih has) :)

/-- A name is repeated if the form has declared it, no matter how often. -/
theorem AllFind.names (form : BindingForm) (xs : List Ident) (h : AllFind vs fs) :
    AllFind (names form [] xs ++ vs) (repeats form [] xs ++ fs) := by
  have hnames : ∀ seen earlier, (∀ y, y ∈ seen ↔ y ∈ earlier) →
      AllFind (Visit.names form earlier xs ++ vs) (repeats form seen xs ++ fs) := by
    induction xs with
    | nil => exact fun _ _ _ => h
    | cons x xs ih =>
      intro seen earlier hseen
      have hx : (Visit.name form earlier x).Finds _ := .intro .nil
      have hmem : seen.contains x.name ↔ earlier.contains x.name := by simp [hseen]
      rw [repeats]
      by_cases hearlier : earlier.contains x.name
      · rw [fault?, if_pos hearlier] at hx
        rw [if_pos (hmem.mpr hearlier)]
        refine (AllFind.cons hx (ih _ _ (fun y => ?_)) :)
        rw [hseen, List.mem_append, List.mem_singleton]
        exact ⟨.inl, fun h => h.elim id (fun h => h ▸ by simpa using hearlier)⟩
      · rw [fault?, if_neg hearlier] at hx
        rw [if_neg (mt hmem.mp hearlier)]
        refine (AllFind.cons hx (ih _ _ (fun y => ?_)) :)
        rw [List.mem_cons, hseen, List.mem_append, List.mem_singleton, or_comm]
  exact hnames [] [] (fun _ => Iff.rfl)

/-- Resolving finds the faults of an expression in the order of their places. -/
theorem finds_scopeFaults (scopes : Scopes) (e : NamedExpr) :
    (Visit.expr scopes e).Finds (e.scopeFaults scopes) := by
  induction e using Expr.induction generalizing scopes with
  | var s x =>
    have hx : (Visit.expr scopes (.var s x)).Finds _ := .intro .nil
    have hdeclared : (scopes.address? x.name).isSome ↔ scopes.any (·.contains x.name) := by
      rw [Scopes.isSome_address?, List.mem_flatten]
      simp
    rw [Expr.scopeFaults]
    by_cases h : scopes.any (·.contains x.name)
    · rw [fault?, if_pos h] at hx
      rw [if_pos (hdeclared.mpr h)]
      exact hx
    · rw [fault?, if_neg h] at hx
      rw [if_neg (mt hdeclared.mp h)]
      exact hx
  | unary s op e ihe =>
    have h := AllFind.cons (ihe scopes) .nil
    rw [List.append_nil] at h
    exact .below rfl h
  | binary s op l r ihl ihr =>
    have h := AllFind.cons (ihl scopes) (.cons (ihr scopes) .nil)
    rw [List.append_nil] at h
    exact .below rfl h
  | app s f args ihf ihargs =>
    have h := AllFind.cons (ihf scopes) (.map (fun e he => ihargs e he scopes) .nil)
    rw [List.append_nil, List.append_nil, ← Expr.listFaults_eq] at h
    exact .below rfl h
  | map s params layout body ih =>
    have h := AllFind.names .params params (.cons (ih (params.map Ident.name :: scopes)) .nil)
    rw [List.append_nil] at h
    exact .below rfl h
  | cond s t a b iht iha ihb =>
    have h := AllFind.cons (iht scopes) (.cons (iha scopes) (.cons (ihb scopes) .nil))
    rw [List.append_nil, ← List.append_assoc] at h
    exact .below rfl h
  | letIn s kind defs layout body ihdefs ihbody =>
    have hbody := AllFind.cons (ihbody (Expr.defNames defs :: scopes)) .nil
    rw [List.append_nil] at hbody
    cases kind with
    | plain =>
      have h := AllFind.map (fun d hd => ihdefs d hd scopes)
        (.names (.defs .plain) (defs.map Prod.fst) hbody)
      rw [← Expr.defsFaults_eq] at h
      simp only [← List.append_assoc] at h
      exact .below rfl h
    | recursive =>
      have h := AllFind.names (.defs .recursive) (defs.map Prod.fst)
        (.map (fun d hd => ihdefs d hd (Expr.defNames defs :: scopes)) hbody)
      rw [← Expr.defsFaults_eq] at h
      simp only [← List.append_assoc] at h
      exact .below rfl h
  | block s es ihes =>
    have h := AllFind.map (fun e he => ihes e he scopes) .nil
    rw [List.append_nil, List.append_nil, ← Expr.listFaults_eq] at h
    exact .below rfl h
  | _ => exact .below rfl .nil

end Visit

/-! ## The report -/

namespace Expr

/-- The places of the variables that no form around them declares. -/
def unboundPlaces (p : NamedExpr) : Set (List Nat) :=
  {place | ∃ scopes s x, (Visit.expr [] p).at? place = some (.expr scopes (.var s x)) ∧
    ∀ names ∈ scopes, x.name ∉ names}

/-- The places of the names that their form has declared before. -/
def repeatedPlaces (p : NamedExpr) : Set (List Nat) :=
  {place | ∃ form earlier x, (Visit.expr [] p).at? place = some (.name form earlier x) ∧
    x.name ∈ earlier}

theorem disjoint_places (p : NamedExpr) : Disjoint p.unboundPlaces p.repeatedPlaces := by
  rw [Set.disjoint_left]
  rintro place ⟨scopes, s, x, hvar, -⟩ ⟨form, earlier, y, hname, -⟩
  rw [hvar] at hname
  cases hname

theorem faultAt_ne_none_iff (p : NamedExpr) (place : List Nat) :
    (Visit.expr [] p).faultAt place ≠ none ↔ place ∈ p.unboundPlaces ∪ p.repeatedPlaces := by
  simp only [Visit.faultAt, Set.mem_union, unboundPlaces, repeatedPlaces, Set.mem_ofPred_eq]
  rcases (Visit.expr [] p).at? place with _ | ⟨scopes, e⟩ | ⟨form, earlier, x⟩
  · simp
  · cases e with
    | var s x =>
      simp only [Option.bind_some, Visit.fault?, ne_eq, Option.some.injEq, Visit.expr.injEq,
        Expr.var.injEq]
      simp
    | _ => simp [Visit.fault?]
  · simp [Visit.fault?]

end Expr

/-- If a program does not resolve, its report counts every variable that no form around it declares
and every name that its form has declared before. It keeps the first twenty of them in the order of
their places. -/
theorem resolve_reports (p : NamedExpr) (r : Report) (h : p.resolve = .error r) :
    r.total = p.unboundPlaces.ncard + p.repeatedPlaces.ncard ∧
    ∃ places : List (List Nat), places.Pairwise (· < ·) ∧
      (∀ place, place ∈ places ↔ place ∈ p.unboundPlaces ∪ p.repeatedPlaces) ∧
      r.kept = (places.take 20).filterMap (fun place =>
        ((Visit.expr [] p).faultAt place).map (fun f => f.1.diagnostic f.2)) := by
  have hr : r = .ofList ((p.scopeFaults []).map (fun f => f.1.diagnostic f.2)) := by
    rw [Expr.resolve_eq] at h
    split at h
    · cases h
    · exact (Except.error.inj h).symm
  obtain ⟨places, hplaces⟩ := Visit.finds_scopeFaults [] p
  have hmem : ∀ place, place ∈ places ↔ place ∈ p.unboundPlaces ∪ p.repeatedPlaces := fun place =>
    ⟨fun hp => (p.faultAt_ne_none_iff place).mp (hplaces.ne_none hp),
      fun hp => hplaces.complete place ((p.faultAt_ne_none_iff place).mpr hp)⟩
  have hlength : places.length = (p.scopeFaults []).length := by
    simpa using congrArg List.length hplaces.found
  refine ⟨?_, places, hplaces.sorted, hmem, ?_⟩
  · have hnodup : places.Nodup := hplaces.sorted.imp (fun hlt => ne_of_lt hlt)
    have hset : (places.toFinset : Set (List Nat)) = p.unboundPlaces ∪ p.repeatedPlaces := by
      ext place
      simpa using hmem place
    have hfinite : (p.unboundPlaces ∪ p.repeatedPlaces).Finite :=
      hset ▸ places.toFinset.finite_toSet
    rw [← Set.ncard_union_eq p.disjoint_places (hfinite.subset Set.subset_union_left)
      (hfinite.subset Set.subset_union_right), ← hset, Set.ncard_coe_finset,
      List.toFinset_card_of_nodup hnodup, hlength, hr, Report.total_ofList, List.length_map]
  · have hfound : ∀ (places : List (List Nat)) (fs : List (ScopeFault × Span)),
        places.map (Visit.expr [] p).faultAt = fs.map some →
        places.filterMap (fun place =>
          ((Visit.expr [] p).faultAt place).map (fun f => f.1.diagnostic f.2)) =
        fs.map (fun f => f.1.diagnostic f.2) := by
      intro places fs hfound
      have hmap := congrArg (List.filterMap (Option.map (fun f => f.1.diagnostic f.2))) hfound
      simpa [List.filterMap_map, Function.comp_def] using hmap
    rw [hr, Report.kept_ofList, ← List.map_take]
    refine (hfound _ _ ?_).symm
    rw [List.map_take, List.map_take, hplaces.found]
    rfl

/-- The program `letrec x := y; x := x; in map a, a to b`. -/
def faultyProgram : NamedExpr :=
  let name (x : String) (column : Nat) : Ident := ⟨x, .point ⟨1, column⟩⟩
  let use (x : String) (column : Nat) : NamedExpr := .var (.point ⟨1, column⟩) (name x column)
  .letIn .synthetic .recursive [(name "x" 8, use "y" 13), (name "x" 16, use "x" 21)] ()
    (.map .synthetic [name "a" 31, name "a" 34] () (use "b" 39))

theorem resolve_reports_faultyProgram :
    ∃ r, faultyProgram.resolve = .error r ∧
      r.total = faultyProgram.unboundPlaces.ncard + faultyProgram.repeatedPlaces.ncard ∧
      ∃ places : List (List Nat), places.Pairwise (· < ·) ∧
        (∀ place, place ∈ places ↔
          place ∈ faultyProgram.unboundPlaces ∪ faultyProgram.repeatedPlaces) ∧
        r.kept = (places.take 20).filterMap (fun place =>
          ((Visit.expr [] faultyProgram).faultAt place).map (fun f => f.1.diagnostic f.2)) :=
  ⟨_, rfl, resolve_reports faultyProgram _ rfl⟩

end Mapling
