import Mapling.Proofs.Eval.Fuel
import Mapling.Proofs.Eval.Residue
import Mapling.Proofs.Policy.Agreement

/-! # The text of a value that has been rendered

Rendering a value forces its parts as it goes down, and forcing one part may run any code and fill
other parts. In a program without references all parts that have been passed keep their values, so
what has been written of them stays true (`Shows`) while the rest is rendered. At the end the text
of the value is what was written, and rendering it once more writes the same and forces nothing
(`text_of_render`). -/

namespace Mapling

variable {V L : Type}

/-- In all stores that have the values of `s` in place, the text is `a`, and rendering gives `a` as
well and changes nothing. -/
def Prints (s : Store V L) (text : Store V L → Option String) (render : Eval V L String)
    (a : String) : Prop :=
  ∀ t : Store V L, (∀ i v, s.slot i = .ready v → t.slot i = .ready v) →
    text t = some a ∧ outcome render t = some (.ok a, t)

theorem Prints.mono {s s' : Store V L} {text : Store V L → Option String}
    {render : Eval V L String} {a : String} (ha : Prints s text render a) (hs : s.Tidy [] s') :
    Prints s' text render a :=
  fun t ht => ha t (fun i v hi => ht i v (hs.ready hi List.not_mem_nil))

variable [Variable V]

abbrev Shows (s : Store V L) (n : Nat) (v : Value V L) : String → Prop :=
  Prints s (fun t => v.text t n) (v.render n)

abbrev ShowsItems (s : Store V L) (n i j : Nat) : String → Prop :=
  Prints s (fun t => Value.itemsText t n i j) (Value.renderItems n i j)

variable {s s' : Store V L} {v : Value V L} {n i j : Nat} {a b : String}

theorem ShowsItems.pair (ha : ShowsItems s n i j a) :
    Shows s (n + 1) (.pair i j) ("(" ++ a ++ ")") := by
  intro t ht
  obtain ⟨htext, hrender⟩ := ha t ht
  dsimp only at htext ⊢
  rw [Value.text, htext, Value.render, Value.renderBy, outcome_bind_of_ok _ hrender]
  exact ⟨rfl, rfl⟩

/-- The items of a list are those of its first pair and those of the rest. -/
theorem Shows.items (hi : s.slot i = .ready v) (ha : Shows s n v a) :
    (s.slot j = .ready .null → ShowsItems s (n + 1) i j a) ∧
      ∀ {i' j'}, s.slot j = .ready (.pair i' j') → ShowsItems s n i' j' b →
        ShowsItems s (n + 1) i j (a ++ " " ++ b) := by
  refine ⟨fun hj t ht => ?_, fun {i' j'} hj hb t ht => ?_⟩
  · obtain ⟨htext, hrender⟩ := ha t ht
    have hi := ht i v hi
    have hj := ht j _ hj
    dsimp only at htext ⊢
    rw [Value.itemsText_succ, Value.partText, hi, hj, Value.renderItems, Value.renderItemsBy,
      Eval.forceHead, outcome_bind_of_ok _ (Eval.outcome_force hi _),
      outcome_bind_of_ok _ hrender,
      outcome_bind_of_ok _ ((Eval.outcome_forceTail _ hj _).trans (if_pos rfl))]
    exact ⟨by simp only [Slot.value?, htext, Option.bind_some], rfl⟩
  · obtain ⟨htext, hrender⟩ := ha t ht
    obtain ⟨htext', hrender'⟩ := hb t ht
    have hi := ht i v hi
    have hj := ht j _ hj
    dsimp only at htext htext' ⊢
    rw [Value.itemsText_succ, Value.partText, hi, hj, Value.renderItems, Value.renderItemsBy,
      Eval.forceHead, outcome_bind_of_ok _ (Eval.outcome_force hi _),
      outcome_bind_of_ok _ hrender,
      outcome_bind_of_ok _ ((Eval.outcome_forceTail _ hj _).trans (if_pos rfl))]
    refine ⟨by simp only [Slot.value?, htext, htext', Option.bind_some, Option.map_some], ?_⟩
    dsimp only
    rw [outcome_bind_of_ok _ hrender']
    rfl

/-- A slot that has been read has its value, unless it is evaluated by name. If it had its value
before, nothing has changed. -/
theorem Eval.slot_force {label : String}
    (ho : outcome (Eval.force (Machine.eval n) label i) s = some (.ok v, s'))
    (hi : ∀ x, s.slot i ≠ .byName x) :
    s'.slot i = .ready v ∧ ∀ u, s.slot i = .ready u → s' = s := by
  have hsize := (Tidies.force (Tidies.eval n) label i s _ _ ho).size
  rw [Eval.force, outcome_bind_of_ok _ (outcome_get s)] at ho
  cases hslot : s.slot i with
  | ready u =>
    rw [hslot] at ho
    cases ho
    exact ⟨hslot, fun _ _ => rfl⟩
  | byName x => exact absurd hslot (hi x)
  | byNeed x =>
    have hlt : i < s.slots.size := Store.lt_size_of_slot (by rw [hslot]; rintro ⟨⟩)
    rw [hslot] at ho
    dsimp only at ho
    rw [outcome_bind_of_ok _ (Eval.outcome_put _ _ s), Eval.outcome_settle] at ho
    obtain ⟨⟨r, s2⟩, -, heq⟩ := Option.map_eq_some_iff.mp ho
    cases heq
    rw [Store.size_setSlot] at hsize
    rw [Store.slot_setSlot, if_pos ⟨rfl, hlt.trans_le hsize⟩]
    exact ⟨rfl, by rintro _ ⟨⟩⟩
  | _ =>
    rw [hslot] at ho
    cases ho

/-! ## Rendering -/

variable {σ : Eagerness} {m : Machine} {B : Bindings V L}

/-- Reading a part of a pair leaves its value there, unless pairs are by name. If pairs are eager
nothing changes. -/
theorem Traces.force (hs : Traces σ B m s)
    (hev : EvaluatorTraced σ m (Machine.eval n : Evaluator V L)) (hname : m.config.cons ≠ .name)
    {r : Purpose} (hi : B.HasPurpose r i) (hr : r ≠ .variable) {label : String}
    (ho : outcome (Eval.force (Machine.eval n) label i) s = some (.ok v, s')) :
    ∃ B' : Bindings V L, B <+: B' ∧ Traces σ B' m s' ∧ B'.Gives σ v ∧ v.IsPure ∧
      s'.slot i = .ready v ∧ (σ.cons = true → s' = s) := by
  obtain ⟨B', hB, hs', -, h, hv⟩ := Traced.force (fun _ => hev) hs label i v s' ho
  obtain ⟨hslot, hsame⟩ := Eval.slot_force ho (fun x hx => by
    obtain ⟨y, hy, rfl⟩ := hi
    have hholds := hs.slot i y hy
    rw [hx] at hholds
    exact hholds.2.elim hr hname)
  refine ⟨B', hB, hs', hv.gives, hv.isPure hs'.pure, hslot, fun hcons => ?_⟩
  obtain ⟨u, hu, -⟩ := hs.ready hcons hi hr
  exact hsame u hu

/-- What is written of a value is its text afterwards. If pairs are eager nothing changes. -/
theorem Traces.render (hev : ∀ n, EvaluatorTraced σ m (Machine.eval n : Evaluator V L))
    (hname : m.config.cons ≠ .name) (n : Nat) :
    (∀ {B : Bindings V L} {s v a s'}, Traces σ B m s → B.Gives σ v → v.IsPure →
      outcome (v.render n) s = some (.ok a, s') →
      ∃ B', B <+: B' ∧ Traces σ B' m s' ∧ Shows s' n v a ∧ (σ.cons = true → s' = s)) ∧
    ∀ {B : Bindings V L} {s i j a s'}, Traces σ B m s → B.HasPurpose .head i →
      B.HasPurpose .tail j → outcome (Value.renderItems n i j) s = some (.ok a, s') →
      ∃ B', B <+: B' ∧ Traces σ B' m s' ∧ ShowsItems s' n i j a ∧ (σ.cons = true → s' = s) := by
  induction n with
  | zero => exact ⟨fun _ _ _ ho => (by cases ho), fun _ _ _ ho => (by cases ho)⟩
  | succ n ih =>
    obtain ⟨ihv, ihi⟩ := ih
    refine ⟨fun {B s v a s'} hs hv hpure ho => ?_, fun {B s i j a s'} hs hi hj ho => ?_⟩
    · cases v with
      | ref i => exact hpure.elim
      | pair i j =>
        obtain ⟨h, env, e, hv⟩ := hv
        obtain ⟨b, s1, ho1, ho⟩ := outcome_bind_ok.mp ho
        cases ho
        obtain ⟨B', hB, hs', hb, hsame⟩ := ihi hs hv.parts.1 hv.parts.2 ho1
        exact ⟨B', hB, hs', hb.pair, hsame⟩
      | _ =>
        cases ho
        exact ⟨B, List.prefix_refl B, hs, fun t _ => ⟨rfl, rfl⟩, fun _ => rfl⟩
    · obtain ⟨v, s1, ho1, ho⟩ := outcome_bind_ok.mp ho
      obtain ⟨head, s2, ho2, ho⟩ := outcome_bind_ok.mp ho
      obtain ⟨u, s3, ho3, ho⟩ := outcome_bind_ok.mp ho
      obtain ⟨u', s3', ho3, hlist⟩ := outcome_bind_ok.mp ho3
      obtain ⟨B1, hB1, hs1, hv, hpure, hslot1, hsame1⟩ := hs.force (hev n) hname hi nofun ho1
      obtain ⟨B2, hB2, hs2, hhead, hsame2⟩ := ihv hs1 hv hpure ho2
      obtain ⟨B3, hB3, hs3, hu, -, hslot3, hsame3⟩ :=
        hs2.force (hev n) hname (.mono (hB1.trans hB2) hj) nofun ho3
      have hsame : σ.cons = true → s3' = s :=
        fun h => (hsame3 h).trans ((hsame2 h).trans (hsame1 h))
      -- what has been written of the head is still true
      have htidy3 := Tidies.force (Tidies.eval n) _ j s2 _ _ ho3
      have hslot1 := htidy3.ready ((Tidies.render n v s1 _ _ ho2).ready hslot1 (by simp)) (by simp)
      have hhead := hhead.mono htidy3
      have hB := (hB1.trans hB2).trans hB3
      cases u' with
      | null =>
        cases hlist
        cases ho
        exact ⟨B3, hB, hs3, (Shows.items (b := a) hslot1 hhead).1 hslot3, hsame⟩
      | pair i' j' =>
        cases hlist
        obtain ⟨h, env, e, hu⟩ := hu
        obtain ⟨b, s4, ho4, ho⟩ := outcome_bind_ok.mp ho
        cases ho
        obtain ⟨B4, hB4, hs4, hb, hsame4⟩ := ihi hs3 hu.parts.1 hu.parts.2 ho4
        have htidy4 := Tidies.renderItems n i' j' _ _ _ ho4
        have hitems := (Shows.items (htidy4.ready hslot1 (by simp)) (hhead.mono htidy4)).2
          (htidy4.ready hslot3 (by simp)) hb
        exact ⟨B4, hB.trans hB4, hs4, hitems, fun h => (hsame4 h).trans (hsame h)⟩
      | _ => exact absurd hlist Eval.not_ok_throw

/-- Once the value of a program without references has been rendered, its text is what was written,
and rendering it again writes the same and changes nothing. If pairs are eager, that was its text
before as well. -/
theorem text_of_render {n k : Nat} {config : Config} {e : Expr V L}
    {s₀ s₁ : Store V L} (hpure : e.isPure = true)
    (hcons : config.cons = .value ∨ config.cons = .need)
    (heval : evaluate n config e = some (.ok v, s₀))
    (hrender : outcome (v.render k) s₀ = some (.ok a, s₁)) :
    Ends (fun n => v.text s₁ n) a ∧ Ends (fun n => outcome (v.render n) s₁) (.ok a, s₁) ∧
      (config.cons = .value → Ends (fun n => v.text s₀ n) a) := by
  -- it does not matter what comparisons find, only where the parts of pairs are
  let σ : Eagerness := ⟨!config.binding.isLazy, !config.cons.isLazy, true, true⟩
  let m : Machine := ⟨config, 0⟩
  have hev : ∀ n, EvaluatorTraced σ m (Machine.eval n : Evaluator V L) := by
    intro n
    rw [← evalWith_equals]
    exact Traced.eval (ComparisonTraced.equals rfl rfl) ⟨rfl, rfl⟩ n
  have hname : config.cons ≠ .name := by rcases hcons with h | h <;> rw [h] <;> rintro ⟨⟩
  obtain ⟨B, -, hs₀, -, h, hv⟩ := hev n [] _ [] e hpure (Traces.start _ _) v s₀ heval
  obtain ⟨B', -, -, ha, hsame⟩ := (Traces.render hev hname k).1 hs₀ ⟨h, _, _, hv⟩
    (hv.isPure hs₀.pure hpure) hrender
  obtain ⟨htext, hagain⟩ := ha s₁ (fun _ _ => id)
  have hends : Ends (fun n => v.text s₁ n) a := ⟨k, fun n hn => (Value.text_mono s₁ hn).1 v a htext⟩
  refine ⟨hends, ⟨k, fun n hn => Below.render hn v s₁ _ hagain⟩, fun hvalue => ?_⟩
  rwa [hsame (by simp [σ, hvalue, Policy.isLazy])] at hends

/-- A list of which no part is computed yet is written, and then has a text. -/
theorem text_of_render_factorials : ∃ v s₀ s₁,
    evaluate 30 ⟨.name, .need, 20⟩ factorials = some (.ok v, s₀) ∧
      outcome (v.render 30) s₀ = some (.ok "(<closure/1> 6 2 1)", s₁) ∧
      Ends (fun n => v.text s₁ n) "(<closure/1> 6 2 1)" := by
  have htext : evaluateText 30 ⟨.name, .need, 20⟩ factorials =
      some (.ok "(<closure/1> 6 2 1)") := by decide +kernel
  rw [evaluateText_eq] at htext
  obtain ⟨⟨r, s₁⟩, ho, rfl⟩ := Option.map_eq_some_iff.mp htext
  obtain ⟨v, s₀, heval, hrender⟩ := outcome_bind_ok.mp ho
  exact ⟨v, s₀, s₁, heval, hrender, (text_of_render rfl (.inr rfl) heval hrender).1⟩

end Mapling
