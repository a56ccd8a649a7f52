import Mapling.Proofs.Continuation.ConversionSimulation
import Mapling.Proofs.Policy.Agreement
import Mapling.Proofs.Syntax.RoundTrip
import Mapling.Proofs.Value.Data

/-! # Conversion preserves meaning

A program and its continuation-passing form are compared in two steps, both of which are known by
now: the program tracks its expansion until two primitives are compared, and the expansion sends
its value to the identity, with which the conversion starts. Each step relates the values that the
free runs end in. Where the text of the one is that of data, the values look alike all the way
down, so the text is that of the other as well (`Scheme.render_iff`).

This is so where everything is evaluated at once. Conversion puts a call before the expression that
needs its value, whether or not that expression comes to need it; so a converted program can fail
where a policy lets the program itself skip the call (`fails_toCps_skipping`). -/

namespace Mapling

variable {V L : Type} [Variable V]

/-! ## Texts of eager runs -/

/-- Some number is enough to write the value in full, and the text is `a`. -/
def HasText (s : Store V L) (v : Value V L) (a : String) : Prop :=
  ∃ n s', outcome (v.render n) s = some (.ok a, s')

/-- When everything is evaluated at once and calls may nest `d` deep, the program has a value
whose text is `a`. -/
def EagerlyGives (d : Nat) (e : Expr V L) (a : String) : Prop :=
  ∃ n v s, evaluate n ⟨.value, .value, d⟩ e = some (.ok v, s) ∧ HasText s v a

/-- The free run of the program ends in a value whose text is `a`. -/
def FreelyGives (marker : Option EvalError) (e : Expr V L) (a : String) : Prop :=
  ∃ n v s, runFreely marker n e = some (.ok v, s) ∧ HasText s v a

variable {a : String} {p : NamedExpr} {e : Expr V L} {s : Store V L}

theorem HasText.of_looksLike {V' L' : Type} [Variable V'] {t : Store V' L'} {v : Value V L}
    {w : Value V' L'} (h : HasText s v a) (hlike : LooksLike s v t w) : HasText t w a := by
  obtain ⟨n, s', hrender⟩ := h
  obtain ⟨o, hv, hw⟩ := hlike.render n
  rw [hrender] at hv
  obtain ⟨r, rfl, hr⟩ := Option.map_eq_some_iff.mp hv.symm
  cases hr
  exact ⟨n, t, hw⟩

/-- The counters of a store do not show in the text of data. -/
theorem hasText_free_iff {v : Value V L} (ha : IsDataText a) (hs : s.free.Eager) :
    HasText s.free v a ↔ HasText s v a := by
  have hlike : ∀ {s t : Store V L}, s.Eager → (∀ i, s.slot i = t.slot i) →
      (∀ i, s.cell i = t.cell i) → HasText s v a → HasText t v a := by
    rintro s t hs hslot hcell ⟨n, s', hrender⟩
    obtain ⟨-, hdata⟩ := ha.isData hs hrender
    exact .of_looksLike ⟨n, s', hrender⟩
      (hdata.looksLike (fun v w h _ => Alike.of_eq hslot hcell v w h) rfl)
  exact ⟨hlike hs (fun _ => rfl) (fun _ => rfl), hlike hs (fun _ => rfl) (fun _ => rfl)⟩

/-- A program that is watched has a text for some depth exactly if its free run has. -/
theorem exists_hasText_iff (marker : Option EvalError) (ha : IsDataText a) :
    (∃ d n v s, evaluateWith (Eval.marking marker) n ⟨.value, .value, d⟩ e =
      some (.ok v, s) ∧ HasText s v a) ↔ FreelyGives marker e a := by
  constructor
  · rintro ⟨d, n, v, s, heval, htext⟩
    have hfree := runFreely_of_evaluateWith heval nofun
    have heager : s.free.Eager := eager_of_runFreely hfree
    exact ⟨n, v, s.free, hfree, (hasText_free_iff ha heager).mpr htext⟩
  · rintro ⟨n, v, s, hfree, htext⟩
    obtain ⟨s', rfl, heval⟩ := evaluateWith_of_runFreely hfree le_rfl
    have heager : s'.free.Eager := eager_of_runFreely hfree
    exact ⟨n, n, v, s', heval, (hasText_free_iff ha heager).mp htext⟩

theorem exists_eagerlyGives_iff (ha : IsDataText a) :
    (∃ d, EagerlyGives d e a) ↔ FreelyGives none e a := by
  rw [← exists_hasText_iff none ha]
  simp only [EagerlyGives, evaluateWith_marking_none]

/-- If no primitives are compared, it does not matter what comparing them raises. -/
theorem exists_runFreely_iff (h : ∀ d, NeverComparesPrims ⟨.value, .value, d⟩ e)
    (marker : EvalError) {r : Except EvalError (Value V L)}
    (hr : ∀ d, r ≠ .error (.depthExceeded d)) :
    (∃ n, runFreely (some marker) n e = some (r, s)) ↔
      ∃ n, runFreely none n e = some (r, s) := by
  constructor
  · rintro ⟨n, hfree⟩
    obtain ⟨s', rfl, heval⟩ := evaluateWith_of_runFreely hfree le_rfl
    obtain ⟨k, hk⟩ := (h n marker _).mp ⟨n, heval⟩
    rw [← evaluateWith_marking_none] at hk
    exact ⟨k, runFreely_of_evaluateWith hk (hr n)⟩
  · rintro ⟨n, hfree⟩
    obtain ⟨s', rfl, heval⟩ := evaluateWith_of_runFreely hfree le_rfl
    rw [evaluateWith_marking_none] at heval
    obtain ⟨k, hk⟩ := (h n marker _).mpr ⟨n, heval⟩
    exact ⟨k, runFreely_of_evaluateWith hk (hr n)⟩

/-! ## Values that are the same -/

namespace Scheme

variable {σ : Scheme} {S : Stage} {v v' : NamedValue}

omit [Variable V] in
theorem isFunction_of_isData {v : Value V L} (h : IsData s v) : v.isFunction = false := by
  cases h <;> rfl

/-- A text of data that one of two values has that are the same, the other has, too. -/
theorem render_iff (ha : IsDataText a) (hleft : S.left.Eager) (hright : S.right.Eager)
    (hS : σ.Related S) (h : σ.Same S.links v v') : HasText S.left v a ↔ HasText S.right v' a := by
  constructor
  · rintro ⟨n, s', hrender⟩
    obtain ⟨-, hdata⟩ := ha.isData hleft hrender
    refine .of_looksLike ⟨n, s', hrender⟩ (hdata.looksLike (fun v v' h hv => ?_) h)
    exact h.alike hS (isFunction_of_isData hv)
  · rintro ⟨n, s', hrender⟩
    obtain ⟨-, hdata⟩ := ha.isData hright hrender
    refine .of_looksLike ⟨n, s', hrender⟩
      (hdata.looksLike (R := fun v' v => σ.Same S.links v v') (fun v' v h hv => ?_) h)
    exact (h.alike hS (h.isFunction_eq.trans (isFunction_of_isData hv))).symm

/-- Two programs whose free runs meet have the same texts of data, unless the first is excused. -/
theorem freelyGives_iff_of_meets {e e' : NamedExpr} (ha : IsDataText a)
    (hmeets : ∀ N M, Meets σ.goal N M (fun n => evalAs σ.marker n [] e) .empty
      (fun m => evalAs none m [] e') .empty)
    (hexcused : ∀ marker s, σ.marker = some marker →
      ¬ Ends (fun n => runFreely σ.marker n e) (.error marker, s)) :
    FreelyGives σ.marker e a ↔ FreelyGives none e' a := by
  have hends : ∀ {marker : Option EvalError} {e : NamedExpr} {n : Nat} {o},
      runFreely marker n e = some o → Ends (fun n => runFreely marker n e) o :=
    fun h => ⟨_, fun _ hn => runFreely_mono hn h⟩
  -- what the meeting says as soon as one of the runs has a value
  have hboth : (∃ n v s, runFreely σ.marker n e = some (.ok v, s)) ∨
      (∃ n v s, runFreely none n e' = some (.ok v, s)) →
      ∃ v s v' s' w, Ends (fun n => runFreely σ.marker n e) (.ok v, s) ∧
        Ends (fun n => runFreely none n e') (.ok v', s') ∧ σ.Related ⟨w, s, s'⟩ ∧
        σ.Same w v v' := by
    rintro (⟨n, v, s, hv⟩ | ⟨m, v', s', hv'⟩)
    · rcases hmeets (n + 1) 0
        (.inl ⟨n, Nat.lt_succ_self n, fun hnone => by cases hnone.symm.trans hv⟩) with
        ⟨v, s, v', s', hx, hy, w, hS, hsame⟩ | ⟨e1, s1, hx, -⟩
      · exact ⟨v, s, v', s', w, hx, hy, hS, hsame⟩
      · cases (hends hv).unique hx
    · rcases hmeets 0 (m + 1) (.inr ⟨m, Nat.lt_succ_self m, v', s', hv'⟩)
        with ⟨v, s, v', s', hx, hy, w, hS, hsame⟩ | ⟨e1, s1, hx, he1 | hnever⟩
      · exact ⟨v, s, v', s', w, hx, hy, hS, hsame⟩
      · exact absurd hx (hexcused e1 s1 he1)
      · exact absurd ⟨v', s', hv'⟩ (hnever m (Nat.lt_succ_self m))
  constructor
  · rintro ⟨n, v0, s0, hv, htext⟩
    obtain ⟨v, s, v', s', w, hx, ⟨m, hy⟩, hS, hsame⟩ := hboth (.inl ⟨n, v0, s0, hv⟩)
    cases (hends hv).unique hx
    have hv' := hy m le_rfl
    exact ⟨m, v', s', hv', (render_iff (S := ⟨w, _, s'⟩) ha (eager_of_runFreely hv)
      (eager_of_runFreely hv') hS hsame).mp htext⟩
  · rintro ⟨m, v0, s0, hv', htext⟩
    obtain ⟨v, s, v', s', w, ⟨n, hx⟩, hy, hS, hsame⟩ := hboth (.inr ⟨m, v0, s0, hv'⟩)
    cases (hends hv').unique hy
    have hv := hx n le_rfl
    exact ⟨n, v, s, hv, (render_iff (S := ⟨w, s, _⟩) ha (eager_of_runFreely hv)
      (eager_of_runFreely hv') hS hsame).mpr htext⟩

theorem related_empty (σ : Scheme) : σ.Related ⟨[], .empty, .empty⟩ := ⟨nofun, nofun⟩

theorem envs_empty (σ : Scheme) : σ.Envs [] [] [] := fun _ _ => .inl ⟨rfl, rfl⟩

end Scheme

/-! ## The two steps -/

/-- The free runs of a program and of its expansion meet. -/
theorem Scheme.meets_expand (marker : EvalError) (p : NamedExpr) (N M : Nat) :
    Meets (expansion marker).goal N M
      (fun n => evalAs (some marker) n [] p) .empty
      (fun m => evalAs none m [] p.expand) .empty := by
  have hmeets := tracks_expand marker (N + M) p N M ⟨[], .empty, .empty⟩ [] []
    (fun _ => pure) (fun _ => pure) le_rfl (related_empty _) (envs_empty _)
    (fun S' v v' _ hS' hv => .of_ok v S'.left v' S'.right (fun _ => rfl) (fun _ => rfl)
      ⟨S'.links, hS', hv⟩)
  simp only [bind_pure] at hmeets
  exact hmeets

/-- A program that compares no primitives has the texts that its expansion has. -/
theorem freelyGives_expand_iff (ha : IsDataText a)
    (hprims : ∀ d, NeverComparesPrims ⟨.value, .value, d⟩ p) :
    FreelyGives none p a ↔ FreelyGives none p.expand a := by
  -- an error that the program does not end in tells when primitives are compared
  obtain ⟨marker, hdepth, hmarker⟩ : ∃ marker : EvalError, (∀ d, marker ≠ .depthExceeded d) ∧
      ∀ n s, runFreely none n p ≠ some (.error marker, s) := by
    by_cases h : ∃ n s, runFreely none n p = some (.error .divisionByZero, s)
    · obtain ⟨n, s, hn⟩ := h
      refine ⟨.unboundVariable "", nofun, fun n' s' hn' => ?_⟩
      have h1 := runFreely_mono (Nat.le_max_left n n') hn
      cases h1.symm.trans (runFreely_mono (Nat.le_max_right n n') hn')
    · exact ⟨.divisionByZero, nofun, fun n s hn => h ⟨n, s, hn⟩⟩
  have hsame : FreelyGives none p a ↔ FreelyGives (some marker) p a := by
    constructor
    · rintro ⟨n, v, s, hv, htext⟩
      obtain ⟨k, hk⟩ := (exists_runFreely_iff hprims marker (by simp)).mpr ⟨n, hv⟩
      exact ⟨k, v, s, hk, htext⟩
    · rintro ⟨n, v, s, hv, htext⟩
      obtain ⟨k, hk⟩ := (exists_runFreely_iff hprims marker (by simp)).mp ⟨n, hv⟩
      exact ⟨k, v, s, hk, htext⟩
  refine hsame.trans (Scheme.freelyGives_iff_of_meets (σ := expansion marker) ha
    (Scheme.meets_expand marker p) ?_)
  rintro _ s ⟨rfl⟩ ⟨n, hends⟩
  have hnever : ∀ d, (.error marker : Except EvalError NamedValue) ≠ .error (.depthExceeded d) :=
    fun d heq => hdepth d (Except.error.inj heq)
  obtain ⟨k, hk⟩ := (exists_runFreely_iff hprims marker hnever).mp ⟨n, hends n le_rfl⟩
  exact hmarker k s hk

/-- The identity receives a value by returning it. -/
theorem Conversion.receives_identityMap (n N M : Nat) (S : Stage) (env : Env) :
    Receives n N M S env (fun _ => pure) identityMap := by
  refine .map (fun env1 _ S' v v' j _ hS' hv _ hslot _ => .right rfl ?_)
  have hvar : ∀ m, outcome (evalAs none (m + 1) ([⟨":x", j⟩] :: env1)
      (.var .synthetic ⟨":x", .synthetic⟩)) S'.right = some (.ok v', S'.right) := by
    intro m
    rw [← bind_pure (evalAs _ _ _ _)]
    exact outcome_var_bind (b := ⟨":x", j⟩) rfl hslot _
  exact .of_ok v S'.left v' S'.right (fun _ => rfl) hvar ⟨S'.links, hS', hv⟩

/-- The expansion of a program has the texts that its continuation-passing form has. -/
theorem freelyGives_toCps_iff {q : NamedExpr} (ha : IsDataText a)
    (hp : p.Original) (hq : p.toCps = .ok q) :
    FreelyGives none p.expand a ↔ FreelyGives none q a := by
  obtain ⟨n, hconverts⟩ := Conversion.converts_of_toCps hq
  refine Scheme.freelyGives_iff_of_meets (σ := Conversion.passing) ha (fun N M => ?_) nofun
  have hmeets := Conversion.sendsAlways (N + M) p hp _ _ _ _ hconverts N M
    ⟨[], .empty, .empty⟩ [] [] _ le_rfl (Scheme.related_empty _) (Scheme.envs_empty _)
    (Conversion.receives_identityMap 0 N M _ _)
  simp only [bind_pure] at hmeets
  exact hmeets

/-! ## Programs that were read -/

open Conversion in
/-- Names and functions in a tree of the grammar as they come from a text. -/
@[simp] def Nonterminal.Original : (nt : Nonterminal) → nt.Tree → Prop
  | .level _, e => Expr.Original e
  | .operands _, f | .calls, f => ∀ e : NamedExpr, e.Original → (f e).Original
  | .arguments, es | .moreArguments, es | .components, es => Expr.AllOriginal es
  | .definitions, ds => Expr.DefsOriginal ds
  | .parameters, ps | .moreParameters, ps => ∀ x ∈ ps, ¬ IsMade x.name

theorem Phrase.length_moreParameters : (d : Phrase .moreParameters) →
    List.length d.tree ≤ d.tokens.length
  | .lastParameter => Nat.le_refl 0
  | .nextParameter _ _ more => by
      have := length_moreParameters more
      simp only [tree, tokens, List.length_cons]
      omega

theorem Phrase.length_parameters (d : Phrase .parameters) :
    List.length d.tree ≤ d.tokens.length := by
  cases d with
  | noParameter => exact Nat.le_refl 0
  | parameter x more => exact Nat.succ_le_succ more.length_moreParameters

/-- What is derived from tokens that can be spelled is original. -/
theorem Phrase.original {nt : Nonterminal} (d : Phrase nt)
    (h : ∀ t ∈ d.tokens, t.kind.Spellable) (hlength : (d.tokens.length : Int) ≤ maxInt + 1) :
    nt.Original d.tree := by
  induction d with
  | operand s op hop e more ihe ihmore =>
    simp only [tokens, List.mem_cons, List.mem_append, or_imp, forall_and, List.length_cons,
      List.length_append] at h hlength
    intro left hleft
    exact ihmore h.2.2 (by omega) _ ⟨hleft, ihe h.2.1 (by omega)⟩
  | callOn s args s' more ihargs ihmore =>
    simp only [tokens, List.mem_cons, List.mem_append, or_imp, forall_and, List.length_cons,
      List.length_append] at h hlength
    intro f hf
    exact ihmore h.2.2.2 (by omega) _ ⟨hf, ihargs h.2.1 (by omega)⟩
  | map s params s1 body ihparams ihbody =>
    have hcount := params.length_parameters
    simp only [tokens, List.mem_cons, List.mem_append, or_imp, forall_and, List.length_cons,
      List.length_append] at h hlength
    exact ⟨ihparams h.2.1 (by omega), by omega, ihbody h.2.2.2 (by omega)⟩
  | noArgument | lastArgument | int | bool | null | prim | lastComponent | lastSemicolon => trivial
  | _ =>
    simp only [tokens, List.mem_cons, List.mem_append, or_imp, forall_and, List.length_cons,
      List.length_append, List.length_nil] at h hlength
    simp only [Nonterminal.Original, tree, Expr.mkBinary, Expr.Original, Expr.AllOriginal,
      Expr.DefsOriginal, Expr.DefOriginal] at *
    grind [TokenKind.Spellable, Conversion.not_isMade_of_isName, Token.ofIdent]

/-- There is at most one token for each byte, and the end of the text. -/
theorem Scan.length_tokens_le (n : Nat) (p : Pos) (cs : List Char) :
    (scanFrom n p cs).tokens.length ≤ cs.length + 1 := by
  have hskipped : ∀ {p q cs c rest}, skipTrivia false p cs = (q, c :: rest) →
      rest.length + 1 ≤ cs.length := by
    intro p q cs c rest hskip
    have hlength := length_skipTrivia_le false p cs
    rwa [hskip, List.length_cons] at hlength
  fun_induction scanFrom n p cs with
  | case1 n p cs q => exact Nat.succ_le_succ (Nat.zero_le _)
  | case2 n p cs q c rest hskip _ more ih =>
    have hrest := hskipped hskip
    change more.tokens.length ≤ rest.length + 1 at ih
    change more.tokens.length ≤ cs.length + 1
    omega
  | case3 n p cs q c rest hskip k extra _ more ih =>
    have hrest := hskipped hskip
    rw [List.length_cons]
    by_cases hfull : Report.limit ≤ n
    · simp only [more, dif_pos hfull, atEnd, List.length_singleton]
      omega
    · rw [List.length_drop] at ih
      simp only [more, dif_neg hfull]
      omega
  | case4 n p cs q c rest hskip digits _ extra more ih =>
    have hrest := hskipped hskip
    rw [List.length_cons]
    by_cases hfull : Report.limit ≤ n + 1
    · simp only [more, dif_pos hfull, atEnd, List.length_singleton]
      omega
    · rw [List.length_drop] at ih
      simp only [more, dif_neg hfull]
      omega

/-- A program that was read is original, as texts are shorter than `2 ^ 63` bytes. -/
theorem original_of_parseSource {s : Source} (h : parseSource s = .ok p)
    (hsize : s.bytes.length < 2 ^ 63) : p.Original := by
  obtain ⟨hfaults, hparse⟩ := parseSource_eq_ok.mp h
  obtain ⟨hspellable, ts, z, htokens, hz⟩ := Scan.wellSpelled_scanFrom _ _ _ hfaults
  have hlength := Scan.length_tokens_le 0 ⟨1, 1⟩ s.bytes
  change (Scan.ofSource s).tokens = ts ++ [z] at htokens
  change (Scan.ofSource s).tokens.length ≤ s.bytes.length + 1 at hlength
  rw [htokens] at hparse hlength
  obtain ⟨d, rest, hd, -, -, rfl⟩ := exists_phrase_of_parseTokens hz hparse
  refine d.original (fun t ht => hspellable t ?_) ?_
  · change t ∈ (Scan.ofSource s).tokens
    rw [htokens, hd]
    exact List.mem_append_left _ ht
  · rw [hd, List.length_append] at hlength
    simp only [maxInt]
    omega

/-- A program and its continuation-passing form have the same texts of data, each with some depth
limit, unless the program compares two primitives. -/
theorem eagerlyGives_toCps_iff (s : Source) (p q : NamedExpr) (hsize : s.bytes.length < 2 ^ 63)
    (hp : parseSource s = .ok p) (hq : p.toCps = .ok q)
    (hprims : ∀ d, NeverComparesPrims ⟨.value, .value, d⟩ p) (a : String) (ha : IsDataText a) :
    (∃ d, EagerlyGives d p a) ↔ ∃ d, EagerlyGives d q a :=
  calc
    (∃ d, EagerlyGives d p a) ↔ FreelyGives none p a := exists_eagerlyGives_iff ha
    _ ↔ FreelyGives none p.expand a := freelyGives_expand_iff ha hprims
    _ ↔ FreelyGives none q a :=
      freelyGives_toCps_iff ha (original_of_parseSource hp hsize) hq
    _ ↔ ∃ d, EagerlyGives d q a := (exists_eagerlyGives_iff ha).symm

theorem EagerlyGives.of_render {d n : Nat}
    (h : (outcome (do (← Machine.eval n ⟨⟨.value, .value, d⟩, 0⟩ [] e).render n)
      (Store.empty.newMachine ⟨.value, .value, d⟩).2).map Prod.fst = some (.ok a)) :
    EagerlyGives d e a := by
  obtain ⟨⟨r, s'⟩, ho, rfl⟩ := Option.map_eq_some_iff.mp h
  obtain ⟨v, s, hv, hrender⟩ := outcome_bind_ok.mp ho
  exact ⟨n, v, s, (evaluate_eq_outcome n _ e).trans hv, n, s', hrender⟩

def assigning : Source := ⟨"test.jam", "let r := ref 1; in { r <- (map x to x * 3)(6); !r }"⟩

/-- The program that `assigning` is read as. -/
def assigningProgram : NamedExpr :=
  let span (i j : Nat) : Span := ⟨⟨1, i⟩, ⟨1, j⟩⟩
  let int (i : Nat) (k : Int) : NamedExpr := .int (span i i) k
  let var (i : Nat) (x : String) : NamedExpr := .var (span i i) ⟨x, span i i⟩
  .letIn (span 1 51) .plain [(⟨"r", span 5 5⟩, .unary (span 10 14) .ref (int 14 1))] ()
    (.block (span 20 51)
      [.binary (span 22 45) .assign (var 22 "r")
        (.app (span 28 45)
          (.map (span 28 41) [⟨"x", span 32 32⟩] ()
            (.binary (span 37 41) .mul (var 37 "x") (int 41 3)))
          [int 44 6]),
      .unary (span 48 49) .deref (var 49 "r")])

theorem parseSource_assigning : parseSource assigning = .ok assigningProgram := by cbv

theorem neverComparesPrims_assigning (d : Nat) :
    NeverComparesPrims ⟨.value, .value, d⟩ assigningProgram := by
  have hsome :
      (evaluateWith Eval.equalsInts 6 ⟨.value, .value, d⟩ assigningProgram).isSome = true := by
    cases d with
    | zero => decide +kernel
    | succ d => cbv
  exact .of_ints hsome

theorem eagerlyGives_toCps_assigning :
    EagerlyGives 1 assigningProgram "18" ∧
      ∃ q, assigningProgram.toCps = .ok q ∧ ∃ d, EagerlyGives d q "18" := by
  have hgives : EagerlyGives 1 assigningProgram "18" := .of_render (n := 6) (by decide +kernel)
  have hq : ∃ q, assigningProgram.toCps = .ok q := ⟨_, by cbv⟩
  have hdata : IsDataText "18" := ⟨.empty, .empty, .int 18, 1, .int 18, rfl⟩
  obtain ⟨q, hq⟩ := hq
  exact ⟨hgives, q, hq, (eagerlyGives_toCps_iff assigning _ q (by decide) parseSource_assigning hq
    neverComparesPrims_assigning "18" hdata).mp ⟨1, hgives⟩⟩

/-! ## Calls that are skipped -/

def skipping : Source := ⟨"test.jam", "(map x to 1)(2(3))"⟩

/-- A program can have a value under a policy by which it skips a call, without comparing any
functions, and still its converted form fails under that policy. -/
theorem fails_toCps_skipping :
    ∃ p q r r', parseSource skipping = .ok p ∧ p.isPure = true ∧ p.resolve = .ok r ∧
      p.toCps = .ok q ∧ q.resolve = .ok r' ∧
      evaluateText 4 ⟨.name, .value, 1⟩ r = some (.ok "1") ∧
      NeverComparesClosures 4 ⟨.name, .value, 1⟩ r ∧ NeverComparesPrims ⟨.name, .value, 1⟩ r ∧
      ∀ d, Ends (fun n => evaluateText n ⟨.name, .value, d⟩ r') (.error (.notAFunction "2")) := by
  refine ⟨_, _, _, _, by cbv, by cbv, by cbv, by cbv, by cbv, by decide +kernel,
    .of_ints (n := 4) (by decide +kernel), .of_ints (n := 4) (by decide +kernel),
    fun d => ⟨3, fun n hn => ?_⟩⟩
  -- `2` is called first, before any call could exceed a limit
  · obtain ⟨n, rfl⟩ : ∃ k, n = k + 3 := ⟨n - 3, by omega⟩
    cbv

/-! ## Primitives that are compared -/

def primitiveTwice : Source := ⟨"test.jam", "first = first"⟩

/-- Conversion makes a function of its own for every primitive that is not called. So the converted
form of a simple program does not find a primitive equal to itself, whatever the policies. -/
theorem toCps_tells_primitives_apart :
    ∃ p q r r', parseSource primitiveTwice = .ok p ∧ p.isSimple = true ∧ p.resolve = .ok r ∧
      p.toCps = .ok q ∧ q.resolve = .ok r' ∧ ∀ binding cons d,
        Ends (fun n => evaluateText n ⟨binding, cons, d⟩ r) (.ok "true") ∧
          Ends (fun n => evaluateText n ⟨binding, cons, d + 2⟩ r') (.ok "false") := by
  refine ⟨_, _, _, _, by cbv, by cbv, by cbv, by cbv, by cbv, fun binding cons d =>
    ⟨⟨6, fun n hn => ?_⟩, ⟨6, fun n hn => ?_⟩⟩⟩
  all_goals
    obtain ⟨n, rfl⟩ := Nat.exists_eq_add_of_le' hn
    cases binding <;> cbv

end Mapling
