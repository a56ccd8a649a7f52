import Mapling.Proofs.Arena.Account

/-! # Decoding the cell of a value

Decoding a cell that represents a value always succeeds, however the cells refer to each other,
and what it gives looks like the value (`Matches.decode`). The references, closures and activations
that represent something lead only to each other, so they are a closed region. And what is decoded
in it is what the cells say, as the values that they represent are. -/

namespace Mapling

/-- The references, closures and activations that represent a value or an environment. -/
def represented (ω : World) : Set Node := fun
  | .shared p => ∃ v, Rep ω v p ∧ (v.tag = .ref ∨ v.tag = .closure)
  | .frame p => ∃ env, EnvRep ω env (some p)

namespace Matches

variable {forms : List (Nat × Form)} {m : Machine} {ω : World} {r : Run} {s : Store Address Layout}
variable {v : Value Address Layout} {addr : Nat}

variable (h : Matches forms m ω r s)
include h

theorem tagged (hv : Rep ω v addr) : r.arena.Tagged addr v.tag :=
  ⟨_, Arena.word_eq (h.words_tag hv), Tag.ofWord?_word _⟩

theorem closureCode {i : Nat} {c : Closure Address Layout} (hv : Rep ω (.closure i c) addr) :
    ∃ f params link, Decode.closureCode r.arena addr = .ok (f, params) ∧
      params.length = c.arity ∧ r.arena.fieldLink addr Cell.closureLink = .ok link ∧
        EnvRep ω c.env link := by
  obtain ⟨f, link, p, k, params, hf, -, hrole, hsame, hlink, -, henv⟩ := h.functionOf_closure hv
  obtain ⟨-, -, hnames, -⟩ := h.holds p _ hrole
  refine ⟨f, params, link, ?_, hsame, hlink, henv⟩
  simp only [Decode.closureCode, hf, bind, Except.bind, hnames]
  rfl

/-- The parts of a pair are at lower addresses. -/
theorem inside (hv : Rep ω v addr) : Inside r.arena (represented ω) addr := by
  induction addr using Nat.strong_induction_on generalizing v with
  | _ addr ih =>
    have htag := h.tagged hv
    cases v with
    | int k => exact .int htag (h.field_int hv)
    | bool b => exact .bool htag
    | null => exact .null htag
    | unit => exact .unit htag
    | prim p => exact .prim htag
    | pair i j =>
      obtain ⟨⟨x, _, hx, hxlt, -, hvx⟩, ⟨y, _, hy, hylt, -, hwy, -⟩⟩ := h.fieldAddr_pair hv
      exact .pair htag hx hy (ih x hxlt hvx) (ih y hylt hwy)
    | ref i => exact .shared ⟨_, hv, .inl rfl⟩
    | closure i c => exact .shared ⟨_, hv, .inr rfl⟩

theorem linkInside {env : Env} {link : Option Nat} (henv : EnvRep ω env link) :
    LinkInside r.arena (represented ω) link := by
  induction env generalizing link with
  | nil =>
    cases henv
    exact .none
  | cons frame env ih =>
    obtain ⟨p, rfl⟩ : ∃ p, link = some p := by
      cases henv
      exact ⟨_, rfl⟩
    obtain ⟨outer, houter, -, hrest⟩ := h.fieldLink_frame henv
    exact .some ⟨_, henv⟩ houter (ih hrest)

/-- What is represented leads only to what is represented. -/
theorem closed : Closed r.arena (represented ω) := by
  refine ⟨fun p hp => ?_, fun p hp => ?_⟩
  · obtain ⟨v, hv, hkind⟩ := hp
    have htag := h.tagged hv
    cases v with
    | ref i =>
      obtain ⟨x, hx, hvx⟩ := h.fieldAddr_ref hv
      exact .inl ⟨htag, x, hx, h.inside hvx⟩
    | closure i c =>
      obtain ⟨f, params, link, hcode, -, hlink, henv⟩ := h.closureCode hv
      exact .inr ⟨htag, _, link, hcode, hlink, h.linkInside henv⟩
    | _ => rcases hkind with hkind | hkind <;> cases hkind
  · obtain ⟨env, henv⟩ := hp
    refine ⟨h.linkInside henv, ?_⟩
    obtain ⟨frame, env, rfl⟩ : ∃ f e, env = f :: e := by
      cases henv
      exact ⟨_, _, rfl⟩
    obtain ⟨words, hwords, -, hslots⟩ := h.slots_frame henv
    refine ⟨words, hwords, fun w hw => ?_⟩
    obtain ⟨i, q, late, hq, hwq⟩ := hslots w hw
    rcases h.holds q _ hq with ⟨-, -, hword⟩ | ⟨v, x, -, hword, hv⟩
    · exact .inl (Option.some.inj (hwq.symm.trans hword))
    · cases hwq.symm.trans hword
      exact .inr ⟨x, rfl, h.inside hv⟩

/-- What was decoded from the cell of a value looks like the value. -/
theorem looksLike {d : Decoder} (hd : Consistent r.arena ∅ d) {v' : CellValue} (hv : Rep ω v addr)
    (hv' : DecodesTo r.arena d addr v') : LooksLike d.store v' s v := by
  refine ⟨fun v' v => ∃ addr, Rep ω v addr ∧ DecodesTo r.arena d addr v', ⟨addr, hv, hv'⟩, ?_⟩
  rintro v' v ⟨addr, hv, hv'⟩
  obtain ⟨t, ht, hreads⟩ := hv'.readsAs
  have htag := h.tagged hv
  cases ht.unique htag
  cases v with
  | int k =>
    obtain ⟨k', hk', rfl⟩ := hreads
    cases hk'.symm.trans (h.field_int hv)
    exact ⟨.int k, trivial⟩
  | bool b =>
    cases hreads
    exact ⟨.bool b, trivial⟩
  | null =>
    cases hreads
    exact ⟨.null, trivial⟩
  | unit =>
    cases hreads
    exact ⟨.unit, trivial⟩
  | prim p =>
    cases hreads
    exact ⟨.prim p, trivial⟩
  | ref i =>
    obtain ⟨c, rfl, hcontent⟩ := hd.ref htag hreads
    obtain ⟨x, hx, hread⟩ := hcontent (Set.notMem_empty addr)
    obtain ⟨y, hy, hvy⟩ := h.fieldAddr_ref hv
    cases hx.symm.trans hy
    exact ⟨.ref ⟨x, hvy, hread⟩, trivial⟩
  | closure i c =>
    obtain ⟨j, c', code, rfl, hcode, hparams⟩ := hd.closure htag hreads
    obtain ⟨f, params, link, hcode', hsame, -⟩ := h.closureCode hv
    cases hcode.symm.trans hcode'
    refine ⟨.closure ?_, trivial⟩
    rw [← hsame, Closure.arity, hparams]
  | pair i j =>
    obtain ⟨x, y, i', j', u, w, hx, hy, rfl, hu, hw, hread, hread'⟩ := hreads
    obtain ⟨⟨x', _, hx', -, hi, hvx⟩, ⟨y', _, hy', -, hj, hwy, -⟩⟩ := h.fieldAddr_pair hv
    cases hx.symm.trans hx'
    cases hy.symm.trans hy'
    refine ⟨.pair ?_ ?_, ⟨_, hu⟩, _, hw⟩
    · rw [hi, hu]
      exact .some ⟨x, hvx, hread⟩
    · rw [hj, hw]
      exact .some ⟨y, hwy, hread'⟩

/-- The cell of a value can be decoded, and the result looks like the value. -/
theorem decode (hv : Rep ω v addr) :
    ∃ v' d, Ends (fun n => r.arena.decode n addr) (.ok v', d) ∧
      (∀ n o, r.arena.decode n addr = some o → o = (.ok v', d)) ∧ LooksLike d.store v' s v := by
  have hhealthy : Healthy r.arena addr := ⟨_, h.closed, h.inside hv⟩
  obtain ⟨v', d, hends, -⟩ := hhealthy.yields .empty
  obtain ⟨N, hN⟩ := hends
  obtain ⟨made, -, hd, hv'⟩ :=
    (accountable r.arena N).value [] [] ∅ .empty addr (accounted_empty r.arena) _ _ (hN N le_rfl)
  exact ⟨v', d, ⟨N, hN⟩, fun n o ho => Decode.value_eq_of_ends ho ⟨N, hN⟩,
    h.looksLike hd.contents hv hv'⟩

end Matches

end Mapling
