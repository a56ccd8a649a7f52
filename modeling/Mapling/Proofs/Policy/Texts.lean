import Mapling.Program
import Mapling.Proofs.Policy.Repeating

/-! # The text of what a program means

A value is written in full by evaluating the parts of pairs that are still put off, so its text is a
matter of what these parts mean (`Renders`). Whatever text the meaning of a pure program has, the
program has it under all policies that put off at least as much (`ends_of_means`).

What is compared while the text is written counts as well, so writing is given a comparison of its
own (`Value.renderWith`). -/

namespace Mapling

/-! ## Texts, with a comparison -/

/-- The text of a value as `render` writes it, with a comparison of its own for `=` and `!=`. -/
abbrev Value.renderWith (cmp : Comparison Address Layout) :
    Nat → Value Address Layout → Eval Address Layout String := renderBy (Machine.evalWith cmp)

abbrev Value.renderItemsWith (cmp : Comparison Address Layout) :
    Nat → Nat → Nat → Eval Address Layout String := renderItemsBy (Machine.evalWith cmp)

/-- Write the items of a list after the first one, given the second part of its first pair. -/
def Value.renderRestWith (cmp : Comparison Address Layout) (n : Nat) (head : String) :
    Value Address Layout → Eval Address Layout String
  | .pair i j => do return head ++ " " ++ (← renderItemsWith cmp n i j)
  | _ => return head

theorem Value.renderItemsWith_succ (cmp : Comparison Address Layout) (n i j : Nat) :
    renderItemsWith cmp (n + 1) i j = (do
      let head ← renderWith cmp n (← Eval.forceHead (Machine.evalWith cmp n) i)
      renderRestWith cmp n head (← Eval.forceTail n (Machine.evalWith cmp n) j)) := by
  rw [renderItemsWith, renderItemsBy]
  congr 1
  funext v
  congr 1
  funext head
  congr 1
  funext w
  cases w <;> rfl

/-- Comparing by the equality of values is what writing a text does. -/
theorem Value.renderWith_equals :
    renderWith (fun n ev => Eval.equals ev n) = (render : Nat → _ → Eval Address Layout _) := by
  have heval : Machine.evalWith (V := Address) (L := Layout) (fun n ev => Eval.equals ev n) =
      Machine.eval := funext evalWith_equals
  rw [renderWith, heval]

theorem Below.renderWith {cmp cmp' : Comparison Address Layout}
    (hcmp : ∀ n n' ev ev' v w, n ≤ n' → EvaluatorsBelow ev ev' →
      Below (cmp n ev v w) (cmp' n' ev' v w)) (n : Nat) (v : Value Address Layout) :
    Below (v.renderWith cmp n) (v.renderWith cmp' n) :=
  (Congruence.renderBy (c := congruence Address Layout) (fun hn => force (evalWith hcmp hn))
    (Nat.le_refl n)).1 v

/-- Evaluating a program and writing its value is one computation. -/
theorem evaluateText_eq (n : Nat) (config : Config) (p : AddressedExpr) :
    evaluateText n config p = (outcome (do (← Machine.eval n ⟨config, 0⟩ [] p).render n)
      (Store.empty.newMachine config).2).map Prod.fst := by
  rw [outcome_bind, ← evaluate_eq_outcome]
  change (evaluate n config p >>= _) = _
  rcases evaluate n config p with _ | ⟨e | v, s⟩
  · rfl
  · rfl
  · change (outcome (v.render n) s >>= _) = (outcome (v.render n) s).map Prod.fst
    cases outcome (v.render n) s <;> rfl

/-- Evaluate a program and write its value in full, with a comparison of its own. -/
def evaluateTextWith (cmp : Comparison Address Layout) (n : Nat) (config : Config)
    (p : AddressedExpr) : Option (Except EvalError String) :=
  (outcome (do (← Machine.evalWith cmp n ⟨config, 0⟩ [] p).renderWith cmp n)
    (Store.empty.newMachine config).2).map Prod.fst

/-- Comparing by the equality of values is what evaluation does. -/
theorem evaluateTextWith_equals (n : Nat) (config : Config) (p : AddressedExpr) :
    evaluateTextWith (fun n ev => Eval.equals ev n) n config p = evaluateText n config p := by
  rw [evaluateTextWith, evaluateText_eq, evalWith_equals]
  rw [Value.renderWith_equals]

variable {config : Config} {p : AddressedExpr}

/-- What is found with a comparison that has less outcomes is what evaluation finds. -/
theorem evaluateText_of_below {cmp : Comparison Address Layout}
    (hcmp : ∀ n n' ev ev' v w, n ≤ n' → EvaluatorsBelow ev ev' →
      Below (cmp n ev v w) (Eval.equals ev' n' v w)) {n : Nat} {r : Except EvalError String}
    (h : evaluateTextWith cmp n config p = some r) : evaluateText n config p = some r := by
  obtain ⟨o, ho, rfl⟩ := Option.map_eq_some_iff.mp h
  have hcmp : ∀ n n' ev ev' v w, n ≤ n' → EvaluatorsBelow ev ev' →
      Below (cmp n ev v w)
        ((fun n ev => Eval.equals ev n : Comparison Address Layout) n' ev' v w) :=
    hcmp
  have hbelow := Below.bind (Below.evalWith hcmp (Nat.le_refl n) ⟨config, 0⟩ [] p)
    (fun v => Below.renderWith hcmp n v) _ o ho
  rw [← evaluateTextWith_equals, evaluateTextWith, hbelow]
  rfl

/-! ## What the text of a value is -/

mutual

/-- The value is written as `a` in full, with at most `h` to do. -/
inductive Renders (σ : Eagerness) (B : Bindings Address Layout) :
    Nat → Value Address Layout → String → Prop
  | plain {h : Nat} {v : Value Address Layout} (hv : ∀ i j, v ≠ .pair i j) :
      Renders σ B h v v.plainText
  | pair {k h i j : Nat} {a : String} (hk : k < h) (ha : RendersItems σ B k i j a) :
      Renders σ B h (.pair i j) ("(" ++ a ++ ")")

/-- The items of the list with the parts `i` and `j` are written as `a`. -/
inductive RendersItems (σ : Eagerness) (B : Bindings Address Layout) :
    Nat → Nat → Nat → String → Prop
  | last {k h i j : Nat} {v w : Value Address Layout} {a : String} (hk : k < h)
      (hi : Reads σ B k i v) (ha : Renders σ B k v a) (hj : Reads σ B k j w)
      (hlist : w.isList = true) (hw : ∀ i j, w ≠ .pair i j) : RendersItems σ B h i j a
  | more {k h i j i' j' : Nat} {v : Value Address Layout} {a b : String} (hk : k < h)
      (hi : Reads σ B k i v) (ha : Renders σ B k v a) (hj : Reads σ B k j (.pair i' j'))
      (hb : RendersItems σ B k i' j' b) : RendersItems σ B h i j (a ++ " " ++ b)

end

variable {σ σ' : Eagerness} {m : Machine} {B B' C : Bindings Address Layout} {h h' : Nat}
  {s t : Store Address Layout} {v v' : Value Address Layout} {a a' : String}

/-- What has a text has it with more to do and when more is put off. -/
theorem renders_carry (hB : Bindings.Covers σ σ' B B') (h : Nat) :
    (∀ {h' v a}, h ≤ h' → Renders σ B h v a → Renders σ' B' h' v a) ∧
      ∀ {h' i j a}, h ≤ h' → RendersItems σ B h i j a → RendersItems σ' B' h' i j a := by
  induction h using Nat.strong_induction_on with
  | _ h ih =>
    refine ⟨fun hh hv => ?_, fun hh hi => ?_⟩
    · cases hv with
      | plain hv => exact .plain hv
      | pair hk ha => exact .pair (by omega) ((ih _ hk).2 (Nat.le_refl _) ha)
    · cases hi with
      | last hk hi ha hj hlist hw =>
        exact .last (by omega) (hi.carry hB (Nat.le_refl _)) ((ih _ hk).1 (Nat.le_refl _) ha)
          (hj.carry hB (Nat.le_refl _)) hlist hw
      | more hk hi ha hj hb =>
        exact .more (by omega) (hi.carry hB (Nat.le_refl _)) ((ih _ hk).1 (Nat.le_refl _) ha)
          (hj.carry hB (Nat.le_refl _)) ((ih _ hk).2 (Nat.le_refl _) hb)

theorem Renders.mono (hB : B <+: B') (hh : h ≤ h') (hv : Renders σ B h v a) :
    Renders σ B' h' v a :=
  (renders_carry (.of_grows σ hB) h).1 hh hv

theorem RendersItems.mono {i j : Nat} (hB : B <+: B') (hh : h ≤ h')
    (hi : RendersItems σ B h i j a) : RendersItems σ B' h' i j a :=
  (renders_carry (.of_grows σ hB) h).2 hh hi

/-- Twins have the same text. -/
theorem renders_unique (hσ : σ.Alike σ') (h : Nat) :
    (∀ {h' v v' a a'}, Renders σ B h v a → Renders σ' C h' v' a' → ValueTwins B C v v' → a' = a) ∧
      ∀ {h' i j i' j' a a'}, RendersItems σ B h i j a → RendersItems σ' C h' i' j' a' →
        Twins B C i i' → Twins B C j j' → a' = a := by
  induction h using Nat.strong_induction_on with
  | _ h ih =>
    refine ⟨fun hv hv' htwins => ?_, fun hi hi' hheads htails => ?_⟩
    · cases hv with
      | plain hv =>
        cases hv' with
        | plain hv' => exact htwins.plainText_eq
        | pair hk' ha' =>
          cases htwins
          exact absurd rfl (hv _ _)
      | pair hk ha =>
        cases htwins with
        | pair hi hj =>
          cases hv' with
          | plain hv' => exact absurd rfl (hv' _ _)
          | pair hk' ha' => rw [(ih _ hk).2 ha ha' hi hj]
    · cases hi with
      | last hk hi ha hj hlist hw =>
        cases hi' with
        | last hk' hi' ha' hj' hlist' hw' =>
          exact (ih _ hk).1 ha ha' (hi.twins hσ hi' hheads)
        | more hk' hi' ha' hj' hb' =>
          cases hj.twins hσ hj' htails
          exact absurd rfl (hw _ _)
      | more hk hi ha hj hb =>
        have hhead := fun {k' v' a'} (hi' : Reads σ' C k' _ v') (ha' : Renders σ' C k' v' a') =>
          (ih _ hk).1 ha ha' (hi.twins hσ hi' hheads)
        cases hi' with
        | last hk' hi' ha' hj' hlist' hw' =>
          cases hj.twins hσ hj' htails
          exact absurd rfl (hw' _ _)
        | more hk' hi' ha' hj' hb' =>
          cases hj.twins hσ hj' htails with
          | pair hi2 hj2 => rw [hhead hi' ha', (ih _ hk).2 hb hb' hi2 hj2]

/-! ## Writing finds the text -/

theorem ValueTwins.isPure (hv : ValueTwins B C v v') (hpure : v.IsPure) : v'.IsPure := by
  cases hv <;> exact hpure

/-- Writing a value in full shows what its text is. -/
theorem Traced.renderWith {cmp : Comparison Address Layout}
    (hev : ∀ n, σ.isTotal = false → EvaluatorTraced σ m (Machine.evalWith cmp n)) (n : Nat) :
    (∀ {B s v}, v.IsPure → Traces σ B m s → Traced σ m B s (v.renderWith cmp n)
      (fun B' a => ∃ h, Renders σ B' h v a)) ∧
    ∀ {B s i j}, Traces σ B m s → Traced σ m B s (Value.renderItemsWith cmp n i j)
      (fun B' a => ∃ h, RendersItems σ B' h i j a) := by
  induction n with
  | zero => exact ⟨fun _ _ => of_not_ok nofun, fun _ => of_not_ok nofun⟩
  | succ n ih =>
    obtain ⟨ihv, ihi⟩ := ih
    refine ⟨fun {B s v} hpure hs => ?_, fun {B s i j} hs => ?_⟩
    · cases v with
      | ref i => exact hpure.elim
      | pair i j =>
        refine bind (ihi hs) ?_
        rintro B1 s1 a hs1 - ⟨k, ha⟩
        exact pure hs1 ⟨k + 1, .pair (Nat.lt_succ_self k) ha⟩
      | _ => exact pure hs ⟨0, .plain nofun⟩
    · rw [Value.renderItemsWith_succ]
      refine bind (force (hev n) hs _ i) ?_
      rintro B1 s1 v hs1 - ⟨k1, hv⟩
      refine bind (ihv (hv.isPure hs1.pure) hs1) ?_
      rintro B2 s2 a hs2 hB2 ⟨k2, ha⟩
      refine bind (forceTail (hev n) hs2 j) ?_
      rintro B3 s3 w hs3 hB3 ⟨⟨k3, hw⟩, hlist⟩
      have hv := hv.mono (hB2.trans hB3) (Nat.le_max_left k1 (max k2 k3))
      have ha := ha.mono hB3 (show k2 ≤ max k1 (max k2 k3) by omega)
      have hw := hw.mono (List.prefix_refl B3) (show k3 ≤ max k1 (max k2 k3) by omega)
      have hlast : (∀ i j, w ≠ .pair i j) → Traced σ m B3 s3 (Pure.pure a)
          (fun B' a => ∃ h, RendersItems σ B' h i j a) :=
        fun hne => pure hs3 ⟨_, .last (Nat.lt_succ_self _) hv ha hw hlist hne⟩
      cases w with
      | pair i' j' =>
        refine bind (ihi hs3) ?_
        rintro B4 s4 b hs4 hB4 ⟨k4, hb⟩
        refine pure hs4 ⟨max (max k1 (max k2 k3)) k4 + 1, .more (Nat.lt_succ_self _)
          (hv.mono hB4 (Nat.le_max_left _ _)) (ha.mono hB4 (Nat.le_max_left _ _))
          (hw.mono hB4 (Nat.le_max_left _ _))
          (hb.mono (List.prefix_refl B4) (Nat.le_max_right _ _))⟩
      | _ => exact hlast nofun

/-- What has a text can be written. -/
theorem Completes.renderWith (hσ : σ.Fits m.config) (hsharing : σ.sharing = false)
    (hB : ∀ (i : Nat) (y : Bound Address Layout), B[i]? = some y → y.expr.isPure = true) (h : Nat) :
    (∀ {C t v v' a}, Renders σ B h v a → ValueTwins B C v v' → Admits σ B C m [] h t →
      Completes (fun n => v'.renderWith Eval.equalsApart n) t) ∧
    ∀ {C t i j i' j' a}, RendersItems σ B h i j a → Twins B C i i' → Twins B C j j' →
      Admits σ B C m [] h t →
      Completes (fun n => Value.renderItemsWith Eval.equalsApart n i' j') t := by
  induction h using Nat.strong_induction_on with
  | _ h ih =>
    refine ⟨fun {C t v v' a} hv htwins hs => ?_, fun {C t i j i' j' a} hitems hi hj hs => ?_⟩
    · refine Yields.succ ?_
      cases htwins with
      | pair hi hj =>
        cases hv with
        | plain hv => exact absurd rfl (hv _ _)
        | pair hk ha =>
          refine Yields.bind ((ih _ hk).2 ha hi hj (hs.lower (Nat.le_of_lt hk))) ?_
          intro a' t' _
          exact of_eq ("(" ++ a' ++ ")") (fun _ => rfl)
      | _ => exact of_eq _ (fun _ => rfl)
    · -- it is enough to look at what comes after the two parts have been evaluated
      have hparts : ∀ {k v w a}, k < h → Reads σ B k i v → Renders σ B k v a →
          Reads σ B k j w → w.isList = true →
          (∀ {C t w' head}, ValueTwins B C w w' → Admits σ B C m [] h t →
            Completes (fun n => w'.renderRestWith Eval.equalsApart n head) t) →
          Completes (fun n => Value.renderItemsWith Eval.equalsApart n i' j') t := by
        intro k v w a hk hv ha hw hlist hrest
        have hle := Nat.le_of_lt hk
        have hbelow := followsBelow (m := m) hσ hsharing hB h
        refine Yields.succ ?_
        simp only [Value.renderItemsWith_succ]
        refine (read hbelow hσ (hv.mono (List.prefix_refl B) hle) hi hs _ Nat.le_refl).bind ?_
        rintro C1 t1 v' hs1 hC1 ⟨hv', -⟩
        have hpure := hv'.isPure (hv.isPure hB)
        refine (Repeats.of_traced hs1 ((ih k hk).1 ha hv' (hs1.lower hle)) (fun n =>
          (Traced.renderWith (fun n _ => Traced.evalApart hσ n) n).1 hpure hs1.traces)).bind ?_
        rintro C2 t2 head hs2 hC2 -
        refine (readTail hbelow hσ (hw.mono (List.prefix_refl B) hle) hlist
          (hj.mono (hC1.trans hC2)) hs2 Nat.le_refl).bind ?_
        rintro C3 t3 w' hs3 - ⟨hw', -⟩
        exact hrest hw' hs3
      cases hitems with
      | last hk hv ha hw hlist hne =>
        refine hparts hk hv ha hw hlist (fun {C t w' head} htwins _ => of_eq head (fun n => ?_))
        cases htwins with
        | pair => exact absurd rfl (hne _ _)
        | _ => rfl
      | more hk hv ha hw hb =>
        refine hparts hk hv ha hw rfl (fun {C t w' head} htwins hs' => ?_)
        cases htwins with
        | pair hi2 hj2 =>
          refine Yields.bind ((ih _ hk).2 hb hi2 hj2 (hs'.lower (Nat.le_of_lt hk))) ?_
          intro b t' _
          exact of_eq (head ++ " " ++ b) (fun _ => rfl)

/-! ## Programs -/

def Config.eagerness (c : Config) : Eagerness :=
  ⟨!c.binding.isLazy, !c.cons.isLazy, false, false⟩

theorem Config.fits (c : Config) : c.eagerness.Fits c := ⟨rfl, rfl⟩

/-- A pure program has the text of what it means. -/
theorem ends_of_means (hpure : p.isPure = true)
    (hB : ∀ (i : Nat) (y : Bound Address Layout), B[i]? = some y → y.expr.isPure = true)
    (hm : Means config.eagerness B h [] p v) (ha : Renders config.eagerness B h v a)
    (hd : h ≤ config.maxDepth) : Ends (fun n => evaluateText n config p) (.ok a) := by
  have hσ := config.fits
  have hstart : Admits config.eagerness B [] ⟨config, 0⟩ [] h (Store.empty.newMachine config).2 :=
    ⟨rfl, Traces.start _ _, (Nat.zero_add h).le.trans hd, nofun⟩
  have heval := Completes.followsBelow hσ rfl hB _ _ (Nat.lt_succ_self h) [] _ [] [] p v hm hpure
    .nil hstart
  obtain ⟨v', t1, ⟨N1, hN1⟩, C1, -, hs1, k1, hm'⟩ := Repeats.of_traced hstart heval
    (fun n => Traced.evalApart hσ n [] _ [] p hpure hstart.traces)
  have htwins := hm.twins (.shared rfl) hm' .nil
  obtain ⟨a', t2, ⟨N2, hN2⟩, -⟩ := (Completes.renderWith hσ rfl hB _).1 ha htwins hs1
  obtain ⟨C2, hC2, -, -, k2, ha'⟩ := (Traced.renderWith (fun n _ => Traced.evalApart hσ n) N2).1
    (hm'.isPure hs1.traces.pure hpure) hs1.traces a' t2 (hN2 N2 (Nat.le_refl N2))
  obtain rfl : a' = a :=
    (renders_unique (.shared rfl) _).1 ha ha' (htwins.mono hC2)
  refine ⟨max N1 N2, fun n hn => evaluateText_of_below Below.equalsApart ?_⟩
  have h1 := hN1 n (by omega)
  have h2 := hN2 n (by omega)
  dsimp only at h1 h2
  rw [evaluateTextWith, outcome_bind_of_ok _ h1, h2]
  rfl

/-- It has the same text when more is put off. -/
theorem ends_of_means_eagerly (hpure : p.isPure = true)
    (hB : ∀ (i : Nat) (y : Bound Address Layout), B[i]? = some y → y.expr.isPure = true)
    (hm : Means σ B h [] p v) (ha : Renders σ B h v a) (hσ : σ.AtLeast config.eagerness)
    (hd : h ≤ config.maxDepth) : Ends (fun n => evaluateText n config p) (.ok a) := by
  have hcovers := Bindings.covers_relaxed (B := B) hσ
  refine ends_of_means hpure (fun i y hy => ?_) (hm.carry hcovers (Nat.le_refl h))
    ((renders_carry hcovers h).1 (Nat.le_refl h) ha) hd
  rw [Bindings.relaxed, List.getElem?_map] at hy
  obtain ⟨x, hx, rfl⟩ := Option.map_eq_some_iff.mp hy
  exact hB i x hx

end Mapling
