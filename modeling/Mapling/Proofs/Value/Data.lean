import Mapling.Proofs.Eval.Eager
import Mapling.Proofs.Value.Alike

/-! # Values without functions

A value is data if there is no function anywhere in it. That can be read off its text: a closure
is written in angle brackets and a primitive by its name, and no other word of a text looks like
one of these. So a text that data has is the text of data only (`isData_of_render`), however the
value came about, and values of two programs that are the same except for their functions have
that text together (`render_of_alike`). -/

namespace Mapling

variable {V L V' L' : Type} {c : Char} {i n : Nat} {w : Value V L} {ev : Evaluator V L}

/-! ## The words of a text -/

def isDelimiter (c : Char) : Bool := c == ' ' || c == '(' || c == ')'

def words : List Char → List (List Char)
  | [] => [[]]
  | c :: cs =>
    if isDelimiter c then [] :: words cs
    else match words cs with
      | [] => [[c]]
      | w :: ws => (c :: w) :: ws

theorem words_ne_nil (cs : List Char) : words cs ≠ [] := by
  fun_induction words cs <;> simp_all

theorem words_append_cons (hc : isDelimiter c) (xs ys : List Char) :
    words (xs ++ c :: ys) = words xs ++ words ys := by
  induction xs with
  | nil => simp [words, hc]
  | cons x xs ih =>
    rw [List.cons_append, words, words, ih]
    by_cases hx : isDelimiter x
    · simp [hx]
    · cases hws : words xs with
      | nil => exact absurd hws (words_ne_nil xs)
      | cons w ws => simp [hx]

theorem words_eq_singleton {cs : List Char} (h : ∀ c ∈ cs, isDelimiter c = false) :
    words cs = [cs] := by
  induction cs with
  | nil => rfl
  | cons c cs ih =>
    have hc := h c List.mem_cons_self
    rw [words, ih (fun d hd => h d (List.mem_cons_of_mem c hd))]
    simp [hc]

def isFunctionWord (w : List Char) : Bool :=
  w.head? == some '<' || Prim.all.any (fun p => p.name.toList == w)

def mentionsFunction (a : String) : Bool := (words a.toList).any isFunctionWord

theorem mentionsFunction_spaced (a b : String) :
    mentionsFunction (a ++ " " ++ b) = (mentionsFunction a || mentionsFunction b) := by
  have hlist : (a ++ " " ++ b).toList = a.toList ++ ' ' :: b.toList := by simp
  rw [mentionsFunction, hlist, words_append_cons rfl, List.any_append]
  rfl

theorem mentionsFunction_bracketed (a : String) :
    mentionsFunction ("(" ++ a ++ ")") = mentionsFunction a := by
  have hlist : ("(" ++ a ++ ")").toList = [] ++ '(' :: (a.toList ++ ')' :: []) := by simp
  have hnil : (words []).any isFunctionWord = false := by decide
  rw [mentionsFunction, hlist, words_append_cons rfl, words_append_cons rfl, List.any_append,
    List.any_append, hnil, Bool.false_or, Bool.or_false]
  rfl

theorem mentionsFunction_ref (a : String) :
    mentionsFunction ("(ref " ++ a ++ ")") = mentionsFunction a := by
  have hparts : "(ref " ++ a ++ ")" = "(" ++ ("ref" ++ " " ++ a) ++ ")" := by
    apply String.toList_inj.mp
    simp
  have href : mentionsFunction "ref" = false := by decide
  rw [hparts, mentionsFunction_bracketed, mentionsFunction_spaced, href, Bool.false_or]

/-! ## Values that have no parts -/

theorem mem_toList_toString {n : Int} (hc : c ∈ (toString n).toList) :
    c = '-' ∨ c.isDigit = true := by
  have hdigit : ∀ {m : Nat}, c ∈ m.repr.toList → c.isDigit = true := by
    intro m hm
    rw [Nat.toList_repr] at hm
    exact Nat.isDigit_of_mem_toDigits (by decide) (by decide) hm
  cases n with
  | ofNat m => exact .inr (hdigit hc)
  | negSucc m =>
    have hlist : (toString (Int.negSucc m)).toList = '-' :: (m + 1).repr.toList := by
      change ("-" ++ (m + 1).repr).toList = _
      simp
    rw [hlist] at hc
    rcases List.mem_cons.mp hc with rfl | hc
    · exact .inl rfl
    · exact .inr (hdigit hc)

/-- The digits of a number mention no function. -/
theorem mentionsFunction_toString (n : Int) : mentionsFunction (toString n) = false := by
  have hne : ∀ c ∈ (toString n).toList, ∀ d : Char, d ≠ '-' → d.isDigit = false → c ≠ d := by
    rintro c hc _ hdash hdigit rfl
    rcases mem_toList_toString hc with rfl | hc
    · exact hdash rfl
    · exact absurd hc (by rw [hdigit]; decide)
  have hword : ∀ c ∈ (toString n).toList, isDelimiter c = false := by
    intro c hc
    simp [isDelimiter, hne c hc ' ' (by decide) (by decide), hne c hc '(' (by decide) (by decide),
      hne c hc ')' (by decide) (by decide)]
  -- a primitive's name starts with a letter
  have hname : ∀ p ∈ Prim.all, p.name.toList.any (fun d => d != '-' && !d.isDigit) = true := by
    decide
  rw [mentionsFunction, words_eq_singleton hword, List.any_cons, List.any_nil, Bool.or_false,
    isFunctionWord, Bool.or_eq_false_iff, List.any_eq_false]
  refine ⟨?_, fun p hp heq => ?_⟩
  · simp only [beq_eq_false_iff_ne]
    intro hhead
    exact hne '<' (List.mem_of_mem_head? hhead) '<' (by decide) (by decide) rfl
  · obtain ⟨d, hd, hletter⟩ := List.any_eq_true.mp (hname p hp)
    obtain ⟨hdash, hdigit⟩ : d ≠ '-' ∧ d.isDigit = false := by simpa using hletter
    rw [beq_iff_eq] at heq
    exact hne d (heq ▸ hd) d hdash hdigit rfl

theorem mentionsFunction_bool (b : Bool) :
    mentionsFunction (if b then "true" else "false") = false := by
  cases b <;> decide

theorem mentionsFunction_closure (i : Nat) (c : Closure V L) :
    mentionsFunction (Value.closure i c).plainText = true := by
  have hlist : (Value.closure i c).plainText.toList =
      '<' :: ("closure/" ++ toString c.arity ++ ">").toList := by
    simp [Value.plainText]
  rw [mentionsFunction, hlist, words, if_neg (by decide)]
  split <;> rfl

theorem mentionsFunction_prim (p : Prim) : mentionsFunction p.name = true := by
  cases p <;> decide

/-! ## Data -/

/-- There is no closure and no primitive in the value, and all its parts are there. -/
inductive IsData (s : Store V L) : Value V L → Prop
  | int (n : Int) : IsData s (.int n)
  | bool (b : Bool) : IsData s (.bool b)
  | null : IsData s .null
  | unit : IsData s .unit
  | pair {h t : Nat} {v w : Value V L} (hhead : s.slot h = .ready v) (htail : s.slot t = .ready w)
      (hv : IsData s v) (hw : IsData s w) : IsData s (.pair h t)
  | ref {i : Nat} (hv : IsData s (s.cell i)) : IsData s (.ref i)

variable {s s' : Store V L}
variable {v : Value V L} {h : Nat}

theorem isData_pair_iff {t : Nat} (hhead : s.slot h = .ready v) (htail : s.slot t = .ready w) :
    IsData s (.pair h t) ↔ IsData s v ∧ IsData s w := by
  constructor
  · rintro (_ | _ | _ | _ | ⟨hhead', htail', hv, hw⟩)
    cases hhead.symm.trans hhead'
    cases htail.symm.trans htail'
    exact ⟨hv, hw⟩
  · rintro ⟨hv, hw⟩
    exact .pair hhead htail hv hw

theorem isData_ref_iff : IsData s (.ref i) ↔ IsData s (s.cell i) := by
  constructor
  · rintro (_ | _ | _ | _ | _ | hv)
    exact hv
  · exact .ref

def Settled (s : Store V L) (v : Value V L) : Prop := s.Eager ∨ IsData s v

/-- A part of a pair that can be read is there, and it is settled as the pair is. -/
theorem Settled.force {t : Nat} {label : String} (hpair : Settled s (.pair h t))
    (hi : i = h ∨ i = t) (hforce : outcome (Eval.force ev label i) s = some (.ok v, s')) :
    s.slot i = .ready v ∧ s' = s ∧ Settled s v := by
  have hready : ∃ w, s.slot i = .ready w ∧ Settled s w := by
    rcases hpair with heager | hdata
    · rcases heager i with huninit | ⟨w, hw⟩
      · rw [Eval.force, outcome_bind_of_ok _ (outcome_get s), huninit] at hforce
        cases hforce
      · exact ⟨w, hw, .inl heager⟩
    · cases hdata with
      | pair hhead htail hv hw =>
        rcases hi with rfl | rfl
        · exact ⟨_, hhead, .inr hv⟩
        · exact ⟨_, htail, .inr hw⟩
  obtain ⟨w, hw, hsettled⟩ := hready
  rw [Eval.outcome_force hw] at hforce
  cases hforce
  exact ⟨hw, rfl, hsettled⟩

theorem Settled.forceTail {t : Nat} (hpair : Settled s (.pair h t))
    (hforce : outcome (Eval.forceTail n ev t) s = some (.ok w, s')) :
    s.slot t = .ready w ∧ s' = s ∧ w.isList = true ∧ Settled s w := by
  obtain ⟨v, s1, hv, hcheck⟩ := outcome_bind_ok.mp hforce
  obtain ⟨hready, rfl, hsettled⟩ := hpair.force (.inr rfl) hv
  split at hcheck
  · rename_i hlist
    cases hcheck
    exact ⟨hready, rfl, hlist, hsettled⟩
  · obtain ⟨x, s2, -, hthrow⟩ := outcome_bind_ok.mp hcheck
    cases hthrow

section

variable [Variable V]

/-- The texts of data are those that mention no function. -/
theorem render_settled (n : Nat) :
    (∀ v a s', Settled s v → outcome (v.render n) s = some (.ok a, s') →
      s' = s ∧ (IsData s v ↔ mentionsFunction a = false)) ∧
    ∀ h t a s', Settled s (.pair h t) →
      outcome (Value.renderItems n h t) s = some (.ok a, s') →
      s' = s ∧ (IsData s (.pair h t) ↔ mentionsFunction a = false) := by
  induction n with
  | zero => exact ⟨fun _ _ _ _ ho => (nomatch ho), fun _ _ _ _ _ ho => (nomatch ho)⟩
  | succ n ih =>
    obtain ⟨ihv, ihi⟩ := ih
    refine ⟨fun v a s' hv ho => ?_, fun h t a s' hpair ho => ?_⟩
    · cases v with
      | int k =>
        cases ho
        exact ⟨rfl, iff_of_true (.int k) (mentionsFunction_toString k)⟩
      | bool b =>
        cases ho
        exact ⟨rfl, iff_of_true (.bool b) (mentionsFunction_bool b)⟩
      | null =>
        cases ho
        exact ⟨rfl, iff_of_true .null (by decide : mentionsFunction "()" = false)⟩
      | unit =>
        cases ho
        exact ⟨rfl, iff_of_true .unit (by decide : mentionsFunction "unit" = false)⟩
      | closure i c =>
        cases ho
        exact ⟨rfl, iff_of_false (nomatch ·) (by simp [mentionsFunction_closure])⟩
      | prim p =>
        cases ho
        exact ⟨rfl, iff_of_false (nomatch ·) (by simp [Value.plainText, mentionsFunction_prim])⟩
      | ref i =>
        rw [Value.render, Value.renderBy, outcome_bind_of_ok _ (outcome_get s)] at ho
        obtain ⟨b, s1, hb, ho⟩ := outcome_bind_ok.mp ho
        cases ho
        obtain ⟨rfl, hdata⟩ := ihv _ b _ (hv.imp id isData_ref_iff.mp) hb
        refine ⟨rfl, ?_⟩
        rw [isData_ref_iff, hdata, mentionsFunction_ref]
      | pair h t =>
        obtain ⟨b, s1, hb, ho⟩ := outcome_bind_ok.mp ho
        cases ho
        obtain ⟨rfl, hdata⟩ := ihi h t b _ hv hb
        refine ⟨rfl, ?_⟩
        rw [hdata, mentionsFunction_bracketed]
    · rw [Value.renderItems, Value.renderItemsBy] at ho
      obtain ⟨v, s1, hforce, hrest⟩ := outcome_bind_ok.mp ho
      obtain ⟨hhead, hs1, hv⟩ := hpair.force (.inl rfl) hforce
      rw [hs1] at hrest
      obtain ⟨b, s2, hb, hrest⟩ := outcome_bind_ok.mp hrest
      obtain ⟨hs2, hdata⟩ := ihv v b _ hv hb
      rw [hs2] at hrest
      obtain ⟨w, s3, hforce, hrest⟩ := outcome_bind_ok.mp hrest
      obtain ⟨htail, hs3, hlist, hw⟩ := hpair.forceTail hforce
      rw [hs3] at hrest
      rw [isData_pair_iff hhead htail, hdata]
      cases w with
      | null =>
        cases hrest
        exact ⟨rfl, and_iff_left .null⟩
      | pair h' t' =>
        obtain ⟨c, s4, hc, hrest⟩ := outcome_bind_ok.mp hrest
        cases hrest
        obtain ⟨hs4, hitems⟩ := ihi h' t' c _ hw hc
        refine ⟨hs4, ?_⟩
        rw [hitems, mentionsFunction_spaced, Bool.or_eq_false_iff]
      | _ => cases hlist

end

/-! ## Texts of data -/

def IsDataText (a : String) : Prop :=
  ∃ (s s' : Store Address Layout) (v : Value Address Layout) (n : Nat),
    IsData s v ∧ outcome (v.render n) s = some (.ok a, s')

/-- Where nothing is put off, a value with the text of data is data. -/
theorem IsDataText.isData [Variable V] {a : String} (ha : IsDataText a) (hs : s.Eager)
    (hrender : outcome (v.render n) s = some (.ok a, s')) : s' = s ∧ IsData s v := by
  obtain ⟨t, t', w, k, hw, hrender'⟩ := ha
  obtain ⟨-, htext⟩ := (render_settled k).1 w a t' (.inr hw) hrender'
  obtain ⟨hsame, hdata⟩ := (render_settled n).1 v a s' (.inl hs) hrender
  exact ⟨hsame, hdata.mpr (htext.mp hw)⟩

variable {t : Store V' L'}

/-- Data looks the same as what has the same shape and parts. -/
theorem IsData.looksLike {R : Value V L → Value V' L' → Prop}
    (hR : ∀ v w, R v w → IsData s v → Alike R s t v w) {w : Value V' L'} (hv : IsData s v)
    (hvw : R v w) : LooksLike s v t w := by
  have hpart : ∀ {i x y}, s.slot i = .ready x → IsData s x → Option.Rel R (s.slot i).value? y →
      Option.Rel (fun v w => R v w ∧ IsData s v) (s.slot i).value? y := by
    intro i x y hi hx hrel
    rw [hi] at hrel ⊢
    cases hrel with
    | some h => exact .some ⟨h, hx⟩
  refine ⟨fun v w => R v w ∧ IsData s v, ⟨hvw, hv⟩, ?_⟩
  rintro v w ⟨hvw, hv⟩
  have hlike := hR v w hvw hv
  cases hv with
  | pair hhead htail hv hw =>
    cases hlike with
    | pair hh ht =>
      exact ⟨.pair (hpart hhead hv hh) (hpart htail hw ht), ⟨_, hhead⟩, _, htail⟩
  | ref hv =>
    cases hlike with
    | ref h => exact ⟨.ref ⟨h, hv⟩, trivial⟩
  | int n =>
    cases hlike
    exact ⟨.int n, trivial⟩
  | bool b =>
    cases hlike
    exact ⟨.bool b, trivial⟩
  | null =>
    cases hlike
    exact ⟨.null, trivial⟩
  | unit =>
    cases hlike
    exact ⟨.unit, trivial⟩

end Mapling
