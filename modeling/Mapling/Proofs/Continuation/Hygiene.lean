import Mapling.Proofs.Continuation.Capture

/-! # Conversion is hygienic

A converted program has the free names of the program, declares each name that was made at one
place, and resolves exactly if the program does (`toCps_hygienic`).

What binding forms declare is accounted for by a number for each list of names they declare. Every
form of the program is a form of the converted program, which may declare one more name, and the
rest of the forms declare made names only. So the sum of the numbers grows by what the made names
add (`Converts.tally`). To count how often a name is declared and to count the forms that declare a
name twice are two cases of this. -/

namespace Mapling

variable {k k' : NamedExpr} {wrap : NamedExpr → NamedExpr} {n n' : Nat} {es : List NamedExpr}
  {x : String}

namespace Conversion

open Mapling.Expr

/-! ## Sums over binding forms -/

def tally (f : List String → Nat) (declared : List (List String)) : Nat := (declared.map f).sum

section

variable {f : List String → Nat}

@[simp] theorem tally_nil : tally f [] = 0 := rfl

@[simp] theorem tally_cons (names : List String) (declared : List (List String)) :
    tally f (names :: declared) = f names + tally f declared := by
  simp [tally]

@[simp] theorem tally_append (declared declared' : List (List String)) :
    tally f (declared ++ declared') = tally f declared + tally f declared' := by
  simp [tally]

end

/-- After names that are not made, the names made from the `n`-th to the `m`-th add `W m - W n` to
the number of a list of names. -/
structure Weighs (f : List String → Nat) (W : Nat → Nat) : Prop where
  nil : f [] = 0
  append : ∀ (names : List String) (n a : Nat), (∀ x ∈ names, ¬ IsMade x) →
    f (names ++ (namesAfter n a).map Ident.name) + W n = f names + W (n + a)

section

variable {f : List String → Nat} {W : Nat → Nat}

theorem Weighs.names (hf : Weighs f W) (n a : Nat) :
    f ((namesAfter n a).map Ident.name) + W n = W (n + a) := by
  have happend := hf.append [] n a nofun
  rwa [List.nil_append, hf.nil, Nat.zero_add] at happend

theorem Weighs.one (hf : Weighs f W) (n : Nat) : f [(freshName (n + 1)).name] + W n = W (n + 1) :=
  hf.names n 1

theorem Shares.declarations_eq (h : Shares k n k' wrap n') : k'.declarations = [] := by
  cases h with
  | isVar | named => rfl

theorem Shares.tally (hf : Weighs f W) {b c : NamedExpr} (h : Shares k n k' wrap n')
    (hc : c = wrap b) :
    tally f c.declarations + W n = tally f k.declarations + tally f b.declarations + W n' := by
  subst hc
  cases h with
  | isVar s x => simp
  | named _ =>
    have hone := hf.one n
    simp only [mkLet, declarations, Expr.defNames, List.map_cons, List.map_nil, defsDeclarations,
      defDeclarations, List.append_nil, tally_cons, tally_append]
    omega

/-! ## Forms with stand-ins -/

/-- The sum over a form with stand-ins inside of their definitions; `m` is the sum over the rest of
the form. -/
theorem tally_chained (hf : Weighs f W) {m : Nat} {form : NamedExpr}
    (hform : tally f form.declarations = tally f (listDeclarations (standIns n es)) + m) :
    tally f (chained (temporaries n es) form).declarations + W n =
      tally f (listDeclarations es) + m + W (n + (temporaries n es).length) := by
  induction es generalizing n m with
  | nil => simpa [temporaries, standIns] using hform
  | cons e es ih =>
    by_cases he : e.isAtomic
    · -- the operand stays where it is, so its forms belong to the rest
      simp only [standIns, standIn, temporaries, countAfter, he, if_true, listDeclarations,
        tally_append] at hform ⊢
      have hrest := ih (n := n) (m := tally f e.declarations + m) (by omega)
      omega
    · -- the operand is moved to the definition of a temporary
      simp only [standIns, standIn, temporaries, countAfter, he, if_false, listDeclarations,
        tally_append, Bool.false_eq_true, mkVar, declarations, tally_nil, Nat.zero_add]
        at hform ⊢
      have hrest := ih (n := n + 1) hform
      have hone := hf.one n
      rw [show n + 1 + (temporaries (n + 1) es).length = n + ((temporaries (n + 1) es).length + 1)
        by omega] at hrest
      simp only [chained, mkLet, declarations, Expr.defNames, List.map_cons, List.map_nil,
        defsDeclarations, defDeclarations, List.append_nil, tally_cons, tally_append,
        List.length_cons]
      omega

/-- The forms of an expression are those of its operands and others, which stay when the operands
are replaced. -/
theorem Replaces.exists_tally {e e' : NamedExpr} {es' : List NamedExpr} (h : Replaces e es e' es') :
    ∃ m, tally f e.declarations = tally f (listDeclarations es) + m ∧
      tally f e'.declarations = tally f (listDeclarations es') + m := by
  cases h with
  | @primCall g => exact ⟨tally f g.declarations, by simp [Nat.add_comm], by simp [Nat.add_comm]⟩
  | call _ | unary | binary _ _ => exact ⟨0, by simp, by simp⟩
  | @test _ _ a b =>
    exact ⟨tally f a.declarations + tally f b.declarations, by simp, by simp⟩
  | @values body _ defs _ hlen =>
    refine ⟨f (Expr.defNames defs) + tally f body.declarations, ?_, ?_⟩ <;>
      simp only [declarations, tally_cons, tally_append, defsDeclarations_eq, defNames_rebind hlen,
        defValues_rebind hlen] <;> omega

variable {n : Nat} {e body : NamedExpr}

theorem tally_mkLet {x : Ident} :
    tally f (mkLet [(x, e)] body).declarations =
      f [x.name] + tally f e.declarations + tally f body.declarations := by
  simp [mkLet, Expr.defNames, Nat.add_assoc]

theorem tally_mkMap {x : Ident} :
    tally f (mkMap [x] body).declarations = f [x.name] + tally f body.declarations := by
  simp [mkMap]

theorem tally_primFunction (hf : Weighs f W) (n : Nat) (p : Prim) :
    tally f (primFunction n p).declarations + W n = W (n + p.parameters + 1) := by
  have hvars (xs : List Ident) : listDeclarations (xs.map mkVar) = [] := by
    induction xs with
    | nil => rfl
    | cons y xs ih => simp [mkVar, ih]
  have hresult : (primResult p ((namesAfter n p.parameters).map mkVar)).declarations = [] := by
    unfold primResult
    split <;> simp [mkBinary, mkApp, hvars]
  simp only [primFunction, mkMap, mkApp, mkVar, declarations, listDeclarations, hresult,
    List.append_nil, tally_cons, tally_nil]
  rw [← namesAfter_succ, Nat.add_zero]
  exact hf.names n (p.parameters + 1)

/-! ## Along the rules -/

mutual

/-- The forms of a converted expression are those of the continuation and the expression, with made
names added. -/
theorem Converts.tally (hf : Weighs f W) {k e c : NamedExpr} {n n' : Nat}
    (h : Converts k e n c n') (he : e.Ready n) :
    tally f c.declarations + W n =
      tally f k.declarations + tally f e.declarations + W n' := by
  match h with
  | .simple _ hr =>
    have hr' := hr.tally hf he
    simp only [mkApp, declarations, listDeclarations, List.append_nil, tally_append]
    omega
  | .operands _ hrep hc =>
    obtain ⟨hes, he'⟩ := hrep.ready he
    obtain ⟨m, hform, hform'⟩ := hrep.exists_tally (f := f)
    have hc' := hc.tally hf (ready_temporaries hes) he'
    have hchained := tally_chained hf hform'
    omega
  | .and _ hc => simpa [mkCond] using hc.tally hf ⟨he.1, ⟨he.2, trivial⟩, trivial⟩
  | .or _ hc => simpa [mkCond] using hc.tally hf ⟨he.1, trivial, he.2, trivial⟩
  | .block _ hc => exact hc.tally hf he
  | .call _ _ hr hrs =>
    have hr' := hr.tally hf he.1
    have hrs' := hrs.tally hf (AllReady.mono hr.le _ he.2)
    simp only [declarations, listDeclarations_append, listDeclarations, List.append_nil,
      tally_append]
    omega
  | .cond _ _ hr hshare ha hb hc =>
    have hle := le_trans hr.le hshare.le
    have hr' := hr.tally hf he.1
    have ha' := ha.tally hf (Ready.mono hle _ he.2.1)
    have hb' := hb.tally hf (Ready.mono (le_trans hle ha.le) _ he.2.2)
    have hwrap := hshare.tally hf hc
    -- the shared continuation is a variable, so that using it twice declares nothing twice
    simp only [hshare.declarations_eq, tally_nil, Nat.zero_add] at ha' hb'
    simp only [declarations, tally_append] at hwrap ⊢
    omega
  | .letIn _ _ hr hshare hb hc =>
    have hr' := hr.tally hf he.1
    have hb' := hb.tally hf (Ready.mono (le_trans hr.le hshare.le) _ he.2)
    have hwrap := hshare.tally hf hc
    simp only [hshare.declarations_eq, tally_nil, Nat.zero_add] at hb'
    simp only [declarations, tally_cons, tally_append, hr.defNames] at hwrap ⊢
    omega
  | .letOne _ hshare hb hc' hc =>
    have hb' := hb.tally hf (Ready.mono hshare.le _ he.2)
    have hc' := hc'.tally hf (Ready.mono (le_trans hshare.le hb.le) _ he.1.1.2)
    have hwrap := hshare.tally hf hc
    simp only [hshare.declarations_eq, tally_nil, Nat.zero_add] at hb'
    rw [tally_mkMap] at hc'
    simp only [declarations, Expr.defNames, List.map_cons, List.map_nil, defsDeclarations,
      defDeclarations, List.append_nil, tally_cons, tally_append]
    omega

/-- A converted chain has the tally of its parts and of the names that were made. -/
theorem Chains.tally (hf : Weighs f W) {k body c : NamedExpr} {ts : List (Ident × NamedExpr)}
    {n n' : Nat} (h : Chains k ts body n c n') (hts : ∀ t ∈ ts, t.2.Ready n)
    (hbody : body.Ready n) :
    tally f c.declarations + W n =
      tally f k.declarations + tally f (chained ts body).declarations + W n' := by
  match h with
  | .nil hc => exact hc.tally hf hbody
  | .simple _ hr hc =>
    obtain ⟨he, hts⟩ := List.forall_mem_cons.mp hts
    have hr' := hr.tally hf he
    have hc' := hc.tally hf (fun t ht => Ready.mono hr.le _ (hts t ht)) (Ready.mono hr.le _ hbody)
    rw [chained, tally_mkLet, tally_mkLet]
    omega
  | .call _ hr hc =>
    obtain ⟨he, hts⟩ := List.forall_mem_cons.mp hts
    have hr' := hr.tally hf hts hbody
    have hc' := hc.tally hf (Ready.mono hr.le _ he)
    rw [tally_mkMap] at hc'
    rw [chained, tally_mkLet]
    omega

/-- A converted sequence has the tally of its parts and of the names that were made. -/
theorem ConvertsAll.tally (hf : Weighs f W) {k c : NamedExpr} {es : List NamedExpr} {n n' : Nat}
    (h : ConvertsAll k es n c n') (hes : AllReady n es) :
    tally f c.declarations + W n =
      tally f k.declarations + tally f (listDeclarations es) + W n' := by
  match h with
  | .nil hc => exact hc.tally hf trivial
  | .last hc => simpa using hc.tally hf hes.1
  | .simple _ hr hc =>
    have hr' := hr.tally hf hes.1
    have hc' := hc.tally hf (AllReady.mono hr.le _ hes.2)
    simp only [declarations, listDeclarations, List.append_nil, tally_append] at hc' ⊢
    omega
  | .call _ hr hc =>
    have hone := hf.one n
    have hr' := hr.tally hf (AllReady.mono (Nat.le_succ _) _ hes.2)
    have hc' := hc.tally hf (Ready.mono (le_trans (Nat.le_succ _) hr.le) _ hes.1)
    rw [tally_mkMap] at hc'
    simp only [mkVar, declarations, listDeclarations, List.append_nil, List.nil_append,
      tally_append] at hr' hc' ⊢
    omega

/-- Reshaping adds to the tally what the names that it makes weigh. -/
theorem Reshapes.tally (hf : Weighs f W) {e r : NamedExpr} {n n' : Nat} (h : Reshapes e n r n')
    (he : e.Ready n) :
    tally f r.declarations + W n = tally f e.declarations + W n' := by
  match h with
  | .int _ _ _ | .bool _ _ _ | .null _ _ | .var _ _ _ => rfl
  | .prim _ p n => simpa using tally_primFunction hf n p
  | .map hb =>
    have hb' := hb.tally hf (Ready.mono (Nat.le_succ _) _ he.2)
    have hparams := hf.append _ n 1 (List.forall_mem_map.mpr he.1)
    simp only [mkVar, declarations, tally_nil, Nat.zero_add] at hb'
    simp only [namesAfter, List.map_cons, List.map_nil] at hparams
    simp only [declarations, tally_cons, List.map_append, List.map_cons, List.map_nil]
    omega
  | .arity _ hr => simpa [Nat.add_assoc] using hr.tally hf he.2
  | .app _ hr => simpa [Nat.add_assoc] using hr.tally hf he.2
  | .unary hr => exact hr.tally hf he
  | .binary hl hr =>
    have hl' := hl.tally hf he.1
    have hr' := hr.tally hf (Ready.mono hl.le _ he.2)
    simp only [declarations, tally_append]
    omega
  | .cond ht ha hb =>
    have ht' := ht.tally hf he.1
    have ha' := ha.tally hf (Ready.mono ht.le _ he.2.1)
    have hb' := hb.tally hf (Ready.mono (le_trans ht.le ha.le) _ he.2.2)
    simp only [declarations, tally_append]
    omega
  | .letIn hd hb =>
    have hd' := hd.tally hf he.1
    have hb' := hb.tally hf (Ready.mono hd.le _ he.2)
    simp only [declarations, tally_cons, tally_append, hd.defNames]
    omega
  | .block hr => exact hr.tally hf he

theorem ReshapesAll.tally (hf : Weighs f W) {es es' : List NamedExpr} {n n' : Nat}
    (h : ReshapesAll es n es' n') (he : AllReady n es) :
    tally f (listDeclarations es') + W n = tally f (listDeclarations es) + W n' := by
  match h with
  | .nil _ => rfl
  | .cons hr hrs =>
    have hr' := hr.tally hf he.1
    have hrs' := hrs.tally hf (AllReady.mono hr.le _ he.2)
    simp only [listDeclarations, tally_append]
    omega

theorem ReshapesDefs.tally (hf : Weighs f W) {ds ds' : List (Ident × NamedExpr)} {n n' : Nat}
    (h : ReshapesDefs ds n ds' n') (hd : DefsReady n ds) :
    tally f (defsDeclarations ds') + W n = tally f (defsDeclarations ds) + W n' := by
  match h with
  | .nil _ => rfl
  | .cons hr hrs =>
    have hr' := hr.tally hf hd.1.2
    have hrs' := hrs.tally hf (DefsReady.mono hr.le _ hd.2)
    simp only [defsDeclarations, defDeclarations, tally_append]
    omega

end

end

/-! ## What is counted -/

/-- How often a name is among the first `n` that are made. -/
def timesMade (x : String) : Nat → Nat
  | 0 => 0
  | n + 1 => timesMade x n + if (freshName (n + 1)).name = x then 1 else 0

theorem timesMade_eq_zero (h : ∀ i, 0 < i → i ≤ n → (freshName i).name ≠ x) :
    timesMade x n = 0 := by
  induction n with
  | zero => rfl
  | succ n ih =>
    rw [timesMade, ih fun i hpos hi => h i hpos (by omega), if_neg (h _ (by omega) le_rfl)]

theorem timesMade_le_one (x : String) (n : Nat) : timesMade x n ≤ 1 := by
  induction n with
  | zero => exact Nat.zero_le 1
  | succ n ih =>
    rw [timesMade]
    split
    · rename_i hx
      have hzero : timesMade x n = 0 := timesMade_eq_zero fun i _ hi heq =>
        absurd (freshName_injective (heq.trans hx.symm)) (by omega)
      omega
    · omega

theorem count_namesAfter (x : String) (n a : Nat) :
    ((namesAfter n a).map Ident.name).count x + timesMade x n = timesMade x (n + a) := by
  induction a generalizing n with
  | zero => simp [namesAfter]
  | succ a ih =>
    have hnext := ih (n + 1)
    rw [show n + 1 + a = n + (a + 1) by omega] at hnext
    rw [← hnext, namesAfter, List.map_cons, List.count_cons, timesMade]
    simp only [beq_iff_eq]
    omega

/-- Counting how often a name is declared. -/
theorem weighs_count (x : String) : Weighs (fun names => names.count x) (timesMade x) := by
  refine ⟨rfl, fun names n a _ => ?_⟩
  have hnames := count_namesAfter x n a
  simp only [List.count_append]
  omega

theorem isMade_of_mem_namesAfter {a : Nat} (hx : x ∈ (namesAfter n a).map Ident.name) :
    IsMade x := by
  induction a generalizing n with
  | zero => cases hx
  | succ a ih =>
    rcases List.mem_cons.mp hx with rfl | hx
    · exact isMade_freshName _
    · exact ih hx

theorem nodup_namesAfter (n a : Nat) : ((namesAfter n a).map Ident.name).Nodup := by
  rw [List.nodup_iff_count_le_one]
  intro x
  have hnames := count_namesAfter x n a
  have hle := timesMade_le_one x (n + a)
  omega

/-- Counting the forms that declare a name twice. -/
theorem weighs_repeats :
    Weighs (fun names => if names.Nodup then 0 else 1) (fun _ => 0) := by
  refine ⟨by simp, fun names n a hnames => ?_⟩
  have happend : (names ++ (namesAfter n a).map Ident.name).Nodup ↔ names.Nodup := by
    rw [List.nodup_append]
    refine ⟨fun h => h.1, fun h => ⟨h, nodup_namesAfter n a, ?_⟩⟩
    rintro x hx _ hy rfl
    exact hnames x hx (isMade_of_mem_namesAfter hy)
  simp only [happend]

theorem tally_count (x : String) (e : NamedExpr) :
    tally (fun names => names.count x) e.declarations = e.binders.count x := by
  rw [tally, binders, List.count_flatten]

theorem tally_repeats (declared : List (List String)) :
    tally (fun names => if names.Nodup then 0 else 1) declared = 0 ↔
      ∀ names ∈ declared, names.Nodup := by
  simp [tally, List.sum_eq_zero_iff]

/-- The name of the identity's parameter is not made by a conversion. -/
theorem freshName_ne (n : Nat) : (freshName n).name ≠ ":x" := by
  intro heq
  have hdigits : Nat.toDigits 10 n = ['x'] := by
    simpa [freshName, Ident.synthetic, String.ext_iff, String.toList_append] using heq
  have hdigit : Char.isDigit 'x' :=
    Nat.isDigit_of_mem_toDigits (by decide) (by decide) (hdigits ▸ List.mem_singleton_self 'x')
  exact absurd hdigit (by decide)

theorem passable_identityMap : Passable 0 identityMap := ⟨nofun, nofun⟩

section

variable {p q : NamedExpr} {n : Nat}

/-- The names that begin with a colon are the names that were made and the one of the identity. -/
theorem count_binders_le_one (h : Converts identityMap p 0 q n) (hp : p.Ready 0) (hx : IsMade x) :
    q.binders.count x ≤ 1 := by
  have htally := h.tally (weighs_count x) hp
  simp only [tally_count, timesMade, Nat.add_zero] at htally
  have hprogram : p.binders.count x = 0 := by
    refine List.count_eq_zero.mpr fun hmem => ?_
    obtain ⟨names, hnames, hmem⟩ := List.mem_flatten.mp hmem
    exact Ready.not_isMade p hp names hnames x hmem hx
  have hidentity : identityMap.binders = [":x"] := rfl
  rw [hidentity, hprogram, Nat.add_zero] at htally
  by_cases heq : x = ":x"
  · subst heq
    have hmade : timesMade ":x" n = 0 := timesMade_eq_zero fun i _ _ => freshName_ne i
    rw [htally, hmade]
    exact le_rfl
  · have hmade := timesMade_le_one x n
    rw [htally, List.count_eq_zero.mpr (by simpa using heq)]
    omega

theorem mem_freeNames_iff_of_converts (h : Converts identityMap p 0 q n) (hp : p.Ready 0)
    (x : String) : x ∈ q.freeNames ↔ x ∈ p.freeNames := by
  rw [h.mem_freeNames passable_identityMap hp]
  exact or_iff_right nofun

theorem exists_resolve_eq_ok_iff_of_converts (h : Converts identityMap p 0 q n) (hp : p.Ready 0) :
    (∃ r, q.resolve = .ok r) ↔ ∃ r, p.resolve = .ok r := by
  have htally := h.tally weighs_repeats hp
  have hidentity : tally (fun names => if names.Nodup then 0 else 1) identityMap.declarations = 0 :=
    rfl
  rw [hidentity] at htally
  simp only [exists_resolve_eq_ok_iff, ← tally_repeats, mem_freeNames_iff_of_converts h hp]
  rw [show tally _ q.declarations = tally _ p.declarations by simpa using htally]

end

end Conversion

open Conversion in
/-- A converted program has the free names of the program, declares every name that begins with a
colon at one place, and resolves exactly if the program does. -/
theorem toCps_hygienic (s : Source) (p q : NamedExpr) (hp : parseSource s = .ok p)
    (hq : p.toCps = .ok q) :
    (∀ x, x ∈ q.freeNames ↔ x ∈ p.freeNames) ∧
      (∀ x ∈ q.binders, x.toList.head? = some ':' → q.binders.count x = 1) ∧
      ((∃ r, q.resolve = .ok r) ↔ ∃ r, p.resolve = .ok r) := by
  obtain ⟨n, hconv⟩ := converts_of_toCps hq
  have hready : p.Ready 0 := Expr.Writable.ready p (writable_of_parseSource hp)
  refine ⟨mem_freeNames_iff_of_converts hconv hready, fun x hx hcolon => ?_,
    exists_resolve_eq_ok_iff_of_converts hconv hready⟩
  have hpos : 0 < q.binders.count x := List.count_pos_iff.mpr hx
  have hle := count_binders_le_one hconv hready hcolon
  omega

/-- The source `map f to f(f(y))`. -/
def twice : Source := ⟨"test.jam", "map f to f(f(y))"⟩

theorem toCps_hygienic_twice :
    ∃ p q, parseSource twice = .ok p ∧ p.toCps = .ok q ∧
      (∀ x, x ∈ q.freeNames ↔ x ∈ p.freeNames) ∧ ":2" ∈ q.binders ∧ q.binders.count ":2" = 1 ∧
      ((∃ r, q.resolve = .ok r) ↔ ∃ r, p.resolve = .ok r) := by
  have h : ∃ p q, parseSource twice = .ok p ∧ p.toCps = .ok q ∧ ":2" ∈ q.binders := by
    refine ⟨_, _, by cbv, by cbv, ?_⟩
    cbv
    exact .tail _ (.tail _ (.tail _ (.head _)))
  obtain ⟨p, q, hp, hq, hmem⟩ := h
  obtain ⟨hfree, hbinders, hresolve⟩ := toCps_hygienic twice p q hp hq
  exact ⟨p, q, hp, hq, hfree, hmem, hbinders ":2" hmem rfl, hresolve⟩

end Mapling
