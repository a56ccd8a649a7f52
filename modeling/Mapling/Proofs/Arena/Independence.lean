import Mapling.Proofs.Arena.Frames

/-! # Decoding does not depend on what was decoded before

A decoder remembers what it has met, so later calls take shorter ways. Their answers are those of
a decoder that starts afresh: the same error, or a value that looks the same. One thing can come
in between. A call that fails leaves references behind whose content could not be decoded, and
these are taken for decoded from then on. So the answers are the same as long as every call has
succeeded, and after any calls at all wherever starting afresh succeeds.

A run that knows more is followed by the fresh one (`Matched`): where the first finds a cell that
it knows from earlier calls, the second decodes it, which succeeds because what is known is
closed. -/

namespace Mapling

/-! ## After any calls -/

section

variable {a : Arena} {d d' : Decoder} {addr n : Nat} {v : CellValue}

/-- What was decoded leads to cells that are known. -/
theorem DecodesTo.inside (h : DecodesTo a d addr v) : Inside a d.known addr := by
  induction h with
  | atom h =>
    cases h with
    | int tag field => exact .int tag field
    | bool tag => exact .bool tag
    | null tag => exact .null tag
    | unit tag => exact .unit tag
    | prim tag => exact .prim tag
    | shared _ _ hknown =>
      exact .shared (Decoder.shared_mem_known.mpr (Option.isSome_of_mem hknown))
  | pair tag hx hy _ _ _ _ ihhead ihtail => exact .pair tag hx hy ihhead ihtail

/-- An environment in the account goes along activations that are known. -/
theorem Accounted.linkInside {made : List FrameRecord} {slots : List Nat} {refs : Set Nat}
    (hd : Accounted a made slots refs d) {env : Env} {link : Option Nat} (h : EnvOf made link env) :
    LinkInside a d.known link := by
  induction env generalizing link with
  | nil =>
    cases link with
    | none => exact .none
    | some p =>
      obtain ⟨e, -, -, henv⟩ := h
      cases henv
  | cons f outer ih =>
    cases link with
    | none => cases h
    | some p =>
      obtain ⟨e, he, rfl, henv⟩ := h
      cases henv
      obtain ⟨link, hlink, houter⟩ := hd.outer e he
      exact .some (Decoder.frame_mem_known.mpr (hd.met e he)) hlink (ih houter)

/-- After calls that all succeeded, what is known is closed. -/
theorem Decoding.closed (h : Decoding a true d) : Closed a d.known := by
  obtain ⟨made, slots, refs, hd, -, hclean⟩ := h.accounted
  obtain ⟨rfl, rfl⟩ := hclean rfl
  refine ⟨fun p hp => ?_, fun p hp => ?_⟩
  · obtain ⟨v, hv⟩ := Option.isSome_iff_exists.mp (Decoder.shared_mem_known.mp hp)
    cases hd.contents.entry p v hv with
    | ref tag _ content =>
      obtain ⟨x, hx, hreads⟩ := content (Set.notMem_empty p)
      exact .inl ⟨tag, x, hx, hreads.inside⟩
    | closure tag _ hcode =>
      obtain ⟨link, hlink, henv⟩ := hd.captured p _ _ hv
      exact .inr ⟨tag, _, link, hcode, hlink, hd.linkInside henv⟩
  · obtain ⟨env, henv⟩ := Option.isSome_iff_exists.mp (Decoder.frame_mem_known.mp hp)
    have hof := hd.known p env henv
    refine ⟨hd.linkInside hof, ?_⟩
    obtain ⟨e, he, rfl, -⟩ := hof
    obtain ⟨words, hwords, hnames, hholds⟩ := hd.frames e he
    refine ⟨words, hwords, fun w hw => ?_⟩
    obtain ⟨i, hi⟩ := List.mem_iff_getElem?.mp hw
    -- the frame has a slot for every word
    have hlength := congrArg List.length hnames
    simp only [List.length_map, Decode.slotNames, List.length_range] at hlength
    have hlt : i < e.frame.length := hlength ▸ (List.getElem?_eq_some_iff.mp hi).1
    rcases hholds i _ w (List.getElem?_eq_getElem hlt) hi with ⟨-, hempty | hmem⟩ |
      ⟨x, v, hx, -, hreads⟩
    · exact .inl hempty
    · cases hmem
    · exact .inr ⟨x, hx, hreads.inside⟩

/-- What a call gave was decoded from its cell. -/
theorem Decoding.decodesTo {clean : Bool} (h : Decoding a clean d)
    (ho : outcome (Decode.value a n addr) d = some (.ok v, d')) : DecodesTo a d' addr v := by
  obtain ⟨made, slots, refs, hd, -⟩ := h.accounted
  obtain ⟨-, -, -, hv⟩ := (accountable a n).value made slots refs d addr hd _ _ ho
  exact hv

/-- A cell that was decoded after calls that all succeeded is healthy. -/
theorem Decoding.healthy (h : Decoding a true d)
    (ho : outcome (Decode.value a n addr) d = some (.ok v, d')) : Healthy a addr := by
  have hd' : Decoding a true d' := .call h (.value ho)
  exact ⟨_, hd'.closed, (h.decodesTo ho).inside⟩

end

/-! ## Decoders that know more and less -/

/-- An answer without its value: that there is one, or the error. -/
def verdict {ε α : Type} : Except ε α → Except ε Unit := Except.map (fun _ => ())

/-- The decoder `d0` knows all that `d` knows, but for cells of the region. -/
structure Behind (X : Set Node) (d0 d : Decoder) : Prop where
  kept : d0.known ⊆ d.known
  close : d.known ⊆ d0.known ∪ X
  region : X ⊆ d.known

section

variable {α β γ δ : Type} {a : Arena} {X : Set Node} {d d1 d0 e1 : Decoder} {addr n : Nat}

theorem Behind.of_eq (h : Behind X d0 d) (hd : d1.known = d.known) (hd0 : e1.known = d0.known) :
    Behind X e1 d1 := by
  refine ⟨?_, ?_, ?_⟩
  · rw [hd, hd0]
    exact h.kept
  · rw [hd, hd0]
    exact h.close
  · rw [hd]
    exact h.region

/-- Both decoders meet the same cell. -/
theorem Behind.insert (h : Behind X d0 d) (x : Node) (hd : d1.known = insert x d.known)
    (hd0 : e1.known = insert x d0.known) : Behind X e1 d1 := by
  refine ⟨?_, ?_, ?_⟩
  · rw [hd, hd0]
    exact Set.insert_subset_insert h.kept
  · rw [hd, hd0, Set.insert_union]
    exact Set.insert_subset_insert h.close
  · rw [hd]
    exact h.region.trans (Set.subset_insert _ _)

/-- The second decoder catches up. -/
theorem Behind.met (h : Behind X d0 d) (hmet : Met X d0 e1) : Behind X e1 d := by
  refine ⟨hmet.new.trans (Set.union_subset h.kept h.region), ?_, h.region⟩
  exact h.close.trans (Set.union_subset_union_left X hmet.kept)

theorem Behind.shared_eq_none (h : Behind X d0 d) (hnone : d.shared[addr]? = none) :
    d0.shared[addr]? = none := by
  by_contra hsome
  have hmem : .shared addr ∈ d.known :=
    h.kept (Decoder.shared_mem_known.mpr (Option.isSome_iff_ne_none.mpr hsome))
  rw [Decoder.shared_mem_known, hnone] at hmem
  cases hmem

theorem Behind.envs_eq_none (h : Behind X d0 d) (hnone : d.envs[addr]? = none) :
    d0.envs[addr]? = none := by
  by_contra hsome
  have hmem : .frame addr ∈ d.known :=
    h.kept (Decoder.frame_mem_known.mpr (Option.isSome_iff_ne_none.mpr hsome))
  rw [Decoder.frame_mem_known, hnone] at hmem
  cases hmem

/-! ## One run follows another -/

/-- Whatever comes of `x` from the state `d`, the computations `y` come to the same verdict from
the state `d0`, which stays behind. -/
def Matched (X : Set Node) (d : Decoder) (x : Decode α) (d0 : Decoder) (y : Nat → Decode β) :
    Prop :=
  ∀ o d', outcome x d = some (o, d') → ∃ o0 d0', Ends (fun n => outcome (y n) d0) (o0, d0') ∧
    Behind X d0' d' ∧ verdict o = verdict o0

namespace Matched

variable {x : Decode α} {y : Nat → Decode β}

theorem pure (h : Behind X d0 d) (v : α) (w : β) : Matched X d (pure v) d0 (fun _ => pure w) := by
  rintro o d' ho
  cases ho
  exact ⟨.ok w, d0, ⟨0, fun _ _ => rfl⟩, h, rfl⟩

theorem throw (h : Behind X d0 d) (err : ArenaError) :
    Matched X d (throw err : Decode α) d0 (fun _ => (throw err : Decode β)) := by
  rintro o d' ho
  cases ho
  exact ⟨.error err, d0, ⟨0, fun _ _ => rfl⟩, h, rfl⟩

theorem of_none (h : outcome x d = none) : Matched X d x d0 y := by
  intro o d' ho
  rw [h] at ho
  cases ho

theorem succ (h : Matched X d x d0 (fun n => y (n + 1))) : Matched X d x d0 y := by
  intro o d' ho
  obtain ⟨o0, d0', hends, hrest⟩ := h o d' ho
  exact ⟨o0, d0', hends.succ, hrest⟩

variable {f : α → Decode γ}

/-- After steps that succeed on both sides. -/
theorem step {g : Nat → β → Decode δ} {z : Decode β} {v : α} {w : β}
    (hx : outcome x d = some (.ok v, d1)) (hz : outcome z d0 = some (.ok w, e1))
    (h : Matched X d1 (f v) e1 (fun n => g n w)) :
    Matched X d (x >>= f) d0 (fun n => z >>= g n) := by
  intro o d' ho
  rw [outcome_bind_of_ok _ hx] at ho
  obtain ⟨o0, d0', ⟨N, hN⟩, hrest⟩ := h o d' ho
  refine ⟨o0, d0', ⟨N, fun n hn => ?_⟩, hrest⟩
  dsimp only
  rw [outcome_bind_of_ok _ hz]
  exact hN n hn

/-- One run stays behind the other when both go on. -/
theorem bind {g : Nat → β → Decode δ} (hx : Matched X d x d0 y)
    (hf : ∀ v d' w d0', Behind X d0' d' → Matched X d' (f v) d0' (fun n => g n w)) :
    Matched X d (x >>= f) d0 (fun n => y n >>= g n) := by
  intro o d' ho
  rcases h : outcome x d with _ | ⟨err | v, d1⟩
  · rw [outcome_bind, h] at ho
    cases ho
  · rw [outcome_bind_of_error _ h] at ho
    cases ho
    obtain ⟨o0, d0', ⟨N, hN⟩, hbehind, hverdict⟩ := hx _ _ h
    cases o0 with
    | ok w => cases hverdict
    | error err0 =>
      cases hverdict
      exact ⟨.error err, d0', ⟨N, fun n hn => outcome_bind_of_error _ (hN n hn)⟩, hbehind, rfl⟩
  · rw [outcome_bind_of_ok _ h] at ho
    obtain ⟨o0, e1, ⟨N, hN⟩, hbehind, hverdict⟩ := hx _ _ h
    cases o0 with
    | error err0 => cases hverdict
    | ok w =>
      obtain ⟨o', d0', ⟨M, hM⟩, hrest⟩ := hf v d1 w e1 hbehind o d' ho
      refine ⟨o', d0', ⟨max N M, fun n hn => ?_⟩, hrest⟩
      dsimp only
      rw [outcome_bind_of_ok _ (hN n (by omega))]
      exact hM n (by omega)

/-- Reading the arena. -/
theorem read {r : Except ArenaError α} {g : Nat → α → Decode δ} (h : Behind X d0 d)
    (hf : ∀ v, r = .ok v → Matched X d (f v) d0 (fun n => g n v)) :
    Matched X d (Decode.ofExcept r >>= f) d0 (fun n => Decode.ofExcept r >>= g n) := by
  cases r with
  | ok v => exact step rfl rfl (hf v rfl)
  | error err =>
    rintro o d' ho
    cases ho
    exact ⟨.error err, d0, ⟨0, fun _ _ => rfl⟩, h, rfl⟩

/-- Changes of the store do not matter. -/
theorem make (h : Behind X d0 d) (f : Store Address Site → α × Store Address Site)
    (g : Store Address Site → β × Store Address Site) :
    Matched X d (Decode.make f) d0 (fun _ => Decode.make g) := by
  rintro o d' ho
  cases ho
  exact ⟨_, _, ⟨0, fun _ _ => rfl⟩, h.of_eq rfl rfl, rfl⟩

/-- The first run finds what it knows, and the second one decodes it. -/
theorem of_yields (h : Behind X d0 d) {v : α} (hx : outcome x d = some (.ok v, d))
    (hy : Yields y d0 (fun _ d' => Met X d0 d')) : Matched X d x d0 y := by
  rintro o d' ho
  rw [hx] at ho
  cases ho
  obtain ⟨w, d0', hends, hmet⟩ := hy
  exact ⟨.ok w, d0', hends, h.met hmet, rfl⟩

end Matched

/-- Decoding is followed by a decoder that is behind, as long as a number bounds it. -/
structure Followed (a : Arena) (X : Set Node) (n : Nat) : Prop where
  value : ∀ d d0 addr, Behind X d0 d →
    Matched X d (Decode.value a n addr) d0 (fun m => Decode.value a m addr)
  reference : ∀ d d0 addr, Behind X d0 d →
    Matched X d (Decode.reference a n addr) d0 (fun m => Decode.reference a m addr)
  closure : ∀ d d0 addr, Behind X d0 d →
    Matched X d (Decode.closure a n addr) d0 (fun m => Decode.closure a m addr)
  frame : ∀ d d0 link, Behind X d0 d →
    Matched X d (Decode.frame a n link) d0 (fun m => Decode.frame a m link)
  fill : ∀ d d0 bs bs0 ws, bs.length = bs0.length → Behind X d0 d →
    Matched X d (Decode.fill a n bs ws) d0 (fun m => Decode.fill a m bs0 ws)

namespace Followed

/-- What decoding a cell comes to, it comes to for the decoder that stays behind. -/
theorem value_succ (hX : Closed a X) (h : Followed a X n) (hb : Behind X d0 d) :
    Matched X d (Decode.value a (n + 1) addr) d0 (fun m => Decode.value a m addr) := by
  have hdecodable := hX.decodable (d0.unseen a.words.size)
  cases hknown : d.shared[addr]? with
  | some v =>
    have hpure : outcome (Decode.value a (n + 1) addr) d = some (.ok v, d) := by
      rw [Decode.value, outcome_bind_of_ok _ (outcome_get d), hknown]
      rfl
    refine .of_yields hb hpure ?_
    rcases hb.close (Decoder.shared_mem_known.mpr (Option.isSome_of_mem hknown)) with hmem | hmem
    · obtain ⟨w, hw⟩ := Option.isSome_iff_exists.mp (Decoder.shared_mem_known.mp hmem)
      refine .succ (.of_outcome w d0 (fun m => ?_) (.refl X d0))
      rw [Decode.value, outcome_bind_of_ok _ (outcome_get d0), hw]
      rfl
    · exact hdecodable.value addr d0 (.shared hmem) le_rfl
  | none =>
    refine .succ ?_
    simp only [Decode.value_eq_byWord]
    refine .step (outcome_get d) (outcome_get d0) ?_
    simp only [hknown, hb.shared_eq_none hknown]
    refine .read hb (fun w _ => ?_)
    unfold Decode.byWord
    cases Tag.ofWord? w with
    | none => exact .throw hb _
    | some t =>
      cases t with
      | int => exact .read hb (fun k _ => .pure hb _ _)
      | pair =>
        refine .read hb (fun y _ => .bind (h.value d d0 y hb) ?_)
        intro tail d1 tail0 e1 hb1
        refine .read hb1 (fun x _ => .bind (h.value d1 e1 x hb1) ?_)
        intro head d2 head0 e2 hb2
        exact .make hb2 _ _
      | ref => exact h.reference d d0 addr hb
      | closure => exact h.closure d d0 addr hb
      | activation => exact .throw hb _
      | bool | null | unit | prim => exact .pure hb _ _

theorem reference_succ (h : Followed a X n) (hb : Behind X d0 d) :
    Matched X d (Decode.reference a (n + 1) addr) d0 (fun m => Decode.reference a m addr) := by
  refine .succ ?_
  simp only [Decode.reference]
  refine .step rfl rfl (.step rfl rfl ?_)
  have hb1 := hb.insert (.shared addr)
    (d.known_know (d.store.newRef .unit).2 addr (.ref d.store.cells.size))
    (d0.known_know (d0.store.newRef .unit).2 addr (.ref d0.store.cells.size))
  refine .read hb1 (fun x _ => .bind (h.value _ _ x hb1) ?_)
  intro v d2 v0 e2 hb2
  refine .step rfl rfl (.pure ?_ _ _)
  exact hb2.of_eq rfl rfl

/-- What decoding a function comes to, it comes to for the decoder that stays behind. -/
theorem closure_succ (h : Followed a X n) (hb : Behind X d0 d) :
    Matched X d (Decode.closure a (n + 1) addr) d0 (fun m => Decode.closure a m addr) := by
  refine .succ ?_
  simp only [Decode.closure]
  refine .read hb (fun code _ => .read hb (fun link _ => .bind (h.frame d d0 link hb) ?_))
  intro env d1 env0 e1 hb1
  refine .step (outcome_get d1) (outcome_get e1) ?_
  cases hknown : d1.shared[addr]? with
  | none =>
    simp only [hb1.shared_eq_none hknown]
    refine .step rfl rfl (.step rfl rfl (.pure ?_ _ _))
    exact hb1.insert (.shared addr) (d1.known_know ..) (e1.known_know ..)
  | some v =>
    refine .of_yields hb1 rfl ?_
    cases hknown0 : e1.shared[addr]? with
    | some w => exact .of_outcome w e1 (fun n => rfl) (.refl X e1)
    | none =>
      -- the first decoder knows the closure and the second does not: it is in the region
      have hmem : .shared addr ∈ X := by
        have hmem1 := Decoder.shared_mem_known.mpr (Option.isSome_of_mem hknown)
        refine (hb1.close hmem1).resolve_left ?_
        rw [Decoder.shared_mem_known, hknown0]
        exact Bool.false_ne_true
      exact .of_outcome _ _ (fun n => rfl) (.know hmem e1 _ _)

/-- What decoding an activation comes to, it comes to for the decoder that stays behind. -/
theorem frame_succ (hX : Closed a X) (h : Followed a X n) (hb : Behind X d0 d)
    (link : Option Nat) :
    Matched X d (Decode.frame a (n + 1) link) d0 (fun m => Decode.frame a m link) := by
  cases link with
  | none =>
    refine .succ ?_
    simp only [Decode.frame]
    exact .pure hb _ _
  | some addr =>
    cases hknown : d.envs[addr]? with
    | some env =>
      have hpure : outcome (Decode.frame a (n + 1) (some addr)) d = some (.ok env, d) := by
        rw [Decode.frame, outcome_bind_of_ok _ (outcome_get d), hknown]
        rfl
      refine .of_yields hb hpure ?_
      rcases hb.close (Decoder.frame_mem_known.mpr (Option.isSome_of_mem hknown)) with
        hmem | hmem
      · obtain ⟨env0, henv0⟩ := Option.isSome_iff_exists.mp (Decoder.frame_mem_known.mp hmem)
        refine .succ (.of_outcome env0 d0 (fun m => ?_) (.refl X d0))
        rw [Decode.frame, outcome_bind_of_ok _ (outcome_get d0), henv0]
        rfl
      · exact (hX.decodable _).frame (some addr) d0 (hX.frame addr hmem).1 le_rfl
    | none =>
      refine .succ ?_
      simp only [Decode.frame]
      refine .step (outcome_get d) (outcome_get d0) ?_
      simp only [hknown, hb.envs_eq_none hknown]
      refine .read hb (fun link _ => .bind (h.frame d d0 link hb) ?_)
      intro outer d1 outer0 e1 hb1
      refine .read hb1 (fun words _ => .step rfl rfl (.step rfl rfl ?_))
      refine .bind (h.fill _ _ _ _ words ?_ ?_) (fun _ d2 _ e2 hb2 => .pure hb2 _ _)
      · simp
      · exact hb1.insert (.frame addr) (d1.known_insert_env ..) (e1.known_insert_env ..)

theorem fill_succ (h : Followed a X n) (hb : Behind X d0 d) {bs bs0 : List Binding}
    {ws : List Int} (hlength : bs.length = bs0.length) :
    Matched X d (Decode.fill a (n + 1) bs ws) d0 (fun m => Decode.fill a m bs0 ws) := by
  refine .succ ?_
  obtain _ | ⟨b, bs⟩ := bs <;> obtain _ | ⟨b0, bs0⟩ := bs0
  · simp only [Decode.fill]
    exact .pure hb _ _
  · cases hlength
  · cases hlength
  obtain _ | ⟨w, ws⟩ := ws
  · simp only [Decode.fill]
    exact .pure hb _ _
  have hrest : bs.length = bs0.length := Nat.succ.inj hlength
  simp only [Decode.fill]
  by_cases hempty : w = Cell.uninit
  · simp only [ne_eq, hempty, not_true_eq_false, if_false]
    exact h.fill d d0 bs bs0 ws hrest hb
  · simp only [ne_eq, hempty, not_false_eq_true, if_true]
    refine .read hb (fun x _ => .bind (h.value d d0 x hb) ?_)
    intro v d1 v0 e1 hb1
    refine .step rfl rfl (h.fill _ _ bs bs0 ws hrest ?_)
    exact hb1.of_eq rfl rfl

end Followed

theorem followed (hX : Closed a X) (n : Nat) : Followed a X n := by
  induction n with
  | zero =>
    exact ⟨fun _ _ _ _ => .of_none rfl, fun _ _ _ _ => .of_none rfl, fun _ _ _ _ => .of_none rfl,
      fun _ _ _ _ => .of_none rfl, fun _ _ _ _ _ _ _ => .of_none rfl⟩
  | succ n ih =>
    exact ⟨fun _ _ _ hb => ih.value_succ hX hb, fun _ _ _ hb => ih.reference_succ hb,
      fun _ _ _ hb => ih.closure_succ hb, fun _ _ link hb => ih.frame_succ hX hb link,
      fun _ _ _ _ _ hlength hb => ih.fill_succ hb hlength⟩

/-! ## Values of one cell look alike -/

/-- Two decoders' values of a healthy cell look alike, if only references that are not healthy are
without content. -/
theorem Consistent.looksLike {pending pending0 : Set Nat} (hd : Consistent a pending d)
    (hd0 : Consistent a pending0 d0) (hsick : ∀ p ∈ pending, ¬ Healthy a p)
    (hsick0 : ∀ p ∈ pending0, ¬ Healthy a p) (hhealthy : Healthy a addr) {v v0 : CellValue}
    (hv : DecodesTo a d addr v) (hv0 : DecodesTo a d0 addr v0) :
    LooksLike d.store v d0.store v0 := by
  refine ⟨fun v v0 => ∃ p, Healthy a p ∧ DecodesTo a d p v ∧ DecodesTo a d0 p v0,
    ⟨addr, hhealthy, hv, hv0⟩, ?_⟩
  clear hhealthy hv hv0
  rintro v v0 ⟨p, hhealthy, hv, hv0⟩
  obtain ⟨t, htag, hreads⟩ := hv.readsAs
  obtain ⟨t0, htag0, hreads0⟩ := hv0.readsAs
  cases htag.unique htag0
  cases t with
  | int =>
    obtain ⟨k, hk, rfl⟩ := hreads
    obtain ⟨k0, hk0, rfl⟩ := hreads0
    cases hk.symm.trans hk0
    exact ⟨.int k, trivial⟩
  | bool b =>
    cases hreads
    cases hreads0
    exact ⟨.bool b, trivial⟩
  | null =>
    cases hreads
    cases hreads0
    exact ⟨.null, trivial⟩
  | unit =>
    cases hreads
    cases hreads0
    exact ⟨.unit, trivial⟩
  | prim q =>
    cases hreads
    cases hreads0
    exact ⟨.prim q, trivial⟩
  | pair =>
    obtain ⟨x, y, h, t, u, w, hx, hy, rfl, hu, hw, hhead, htail⟩ := hreads
    obtain ⟨x0, y0, h0, t0, u0, w0, hx0, hy0, rfl, hu0, hw0, hhead0, htail0⟩ := hreads0
    cases hx.symm.trans hx0
    cases hy.symm.trans hy0
    obtain ⟨hxh, hyh⟩ := hhealthy.pair htag hx hy
    refine ⟨.pair ?_ ?_, ⟨u, hu⟩, w, hw⟩
    · rw [hu, hu0]
      exact .some ⟨x, hxh, hhead, hhead0⟩
    · rw [hw, hw0]
      exact .some ⟨y, hyh, htail, htail0⟩
  | ref =>
    obtain ⟨c, rfl, hcontent⟩ := hd.ref htag hreads
    obtain ⟨c0, rfl, hcontent0⟩ := hd0.ref htag hreads0
    obtain ⟨x, hx, hread⟩ := hcontent (fun hp => hsick p hp hhealthy)
    obtain ⟨x0, hx0, hread0⟩ := hcontent0 (fun hp => hsick0 p hp hhealthy)
    cases hx.symm.trans hx0
    obtain ⟨x1, hx1, hxh⟩ := hhealthy.referent htag
    cases hx.symm.trans hx1
    exact ⟨.ref ⟨x, hxh, hread, hread0⟩, trivial⟩
  | closure =>
    obtain ⟨i, c, code, rfl, hcode, hparams⟩ := hd.closure htag hreads
    obtain ⟨i0, c0, code0, rfl, hcode0, hparams0⟩ := hd0.closure htag hreads0
    cases hcode.symm.trans hcode0
    refine ⟨.closure ?_, trivial⟩
    rw [Closure.arity, Closure.arity, hparams, hparams0]
  | activation => exact hreads.elim

/-! ## Answers -/

/-- The same error, or values of the same kind and with the same text. -/
def SameAnswer :
    Except ArenaError CellValue × Decoder → Except ArenaError CellValue × Decoder → Prop
  | (.ok v, d), (.ok v0, d0) => v.kind = v0.kind ∧ ∀ k, v.text d.store k = v0.text d0.store k
  | (.error err, _), (.error err0, _) => err = err0
  | _, _ => False

def Decoder.Later (a : Arena) : Decoder → Decoder → Prop :=
  Relation.ReflTransGen (fun d d' => ∃ ok, d.Call a ok d')

variable {clean : Bool} {o : Except ArenaError CellValue} {d' e : Decoder}

theorem Decoder.Later.decoding (h : Decoder.Later a d e) (hd : Decoding a clean d) :
    ∃ clean, Decoding a clean e := by
  induction h with
  | refl => exact ⟨clean, hd⟩
  | tail _ hcall ih =>
    obtain ⟨clean, hd⟩ := ih
    obtain ⟨ok, hcall⟩ := hcall
    exact ⟨_, .call hd hcall⟩

/-- What was decoded from a cell stays so. -/
theorem Decoder.Later.decodesTo (h : Decoder.Later a d e) (hd : Decoding a clean d) {v : CellValue}
    (hv : DecodesTo a d addr v) : DecodesTo a e addr v := by
  induction h with
  | refl => exact hv
  | tail hlater hcall ih =>
    obtain ⟨clean, hd⟩ := Decoder.Later.decoding hlater hd
    obtain ⟨made, slots, refs, hacc, -⟩ := hd.accounted
    obtain ⟨ok, hcall⟩ := hcall
    obtain ⟨made', slots', refs', hadv, -⟩ := hacc.call hcall
    exact hadv.reads ih

/-- Where starting afresh succeeds, so does a call after any others, with a value that looks the
same then and after all further calls. -/
theorem Decoding.sameAnswer_of_ok (h : Decoding a clean d)
    (ho : outcome (Decode.value a n addr) d = some (o, d')) (hlater : d'.Later a e)
    {v0 : CellValue} (hfresh : Ends (fun n => a.decode n addr) (.ok v0, d0)) :
    SameAnswer (o, e) (.ok v0, d0) := by
  obtain ⟨N, hN⟩ := hfresh
  have hrun : outcome (Decode.value a N addr) .empty = some (.ok v0, d0) := hN N le_rfl
  have hhealthy := Decoding.start.healthy hrun
  obtain ⟨v, rfl⟩ := hhealthy.isOk ho
  have hd' : Decoding a (clean && true) d' := .call h (.value ho)
  have hd0 : Decoding a true d0 := .call .start (.value hrun)
  obtain ⟨_, he⟩ := hlater.decoding hd'
  obtain ⟨_, _, _, hacc, hsick, -⟩ := he.accounted
  obtain ⟨_, _, _, hacc0, hsick0, -⟩ := hd0.accounted
  have hlooks := hacc.contents.looksLike hacc0.contents hsick hsick0 hhealthy
    (hlater.decodesTo hd' (h.decodesTo ho)) (Decoding.start.decodesTo hrun)
  exact ⟨hlooks.kind_eq, hlooks.text_eq⟩

/-- If all earlier calls of a decoder succeeded, a call gives the answer that starting afresh
gives. After calls some of which failed it does so wherever starting afresh succeeds. In either
case the value looks the same after all further calls. -/
theorem decode_independent (h : Decoding a clean d)
    (ho : outcome (Decode.value a n addr) d = some (o, d')) (hlater : d'.Later a e) :
    (clean = true → ∃ r, Ends (fun n => a.decode n addr) r ∧ SameAnswer (o, e) r) ∧
    ∀ v₀ d₀, Ends (fun n => a.decode n addr) (.ok v₀, d₀) → SameAnswer (o, e) (.ok v₀, d₀) := by
  refine ⟨?_, fun v₀ d₀ hfresh => h.sameAnswer_of_ok ho hlater hfresh⟩
  rintro rfl
  -- the fresh decoder knows nothing, and what the other one knows is closed
  have hbehind : Behind d.known .empty d := by
    refine ⟨?_, Set.subset_union_right, subset_rfl⟩
    rintro (p | p) hp
    · rw [Decoder.shared_mem_known, show Decoder.empty.shared[p]? = none from
        Std.HashMap.getElem?_empty] at hp
      cases hp
    · rw [Decoder.frame_mem_known, show Decoder.empty.envs[p]? = none from
        Std.HashMap.getElem?_empty] at hp
      cases hp
  obtain ⟨o₀, d₀, hends, -, hverdict⟩ :=
    (followed h.closed n).value d .empty addr hbehind o d' ho
  refine ⟨(o₀, d₀), hends, ?_⟩
  cases o₀ with
  | ok v₀ => exact h.sameAnswer_of_ok ho hlater hends
  | error err =>
      cases o with
      | ok v => cases hverdict
      | error err' => exact Except.error.inj hverdict

end

/-- A reference to a list of one number, and behind it a pair of the reference and `null`. -/
def kept : Arena :=
  ⟨(Cell.reserved ++ [3, 18, 2, 21, 2, 1, 5, 2, 16, 2]).toArray, 99, .empty⟩

/-- The pair is decoded after the reference. -/
theorem decode_independent_kept : ∃ d o d', Decoding kept true d ∧ .shared 16 ∈ d.known ∧
    outcome (Decode.value kept 9 23) d = some (o, d') ∧ verdict o = .ok () ∧
    ∃ r, Ends (fun n => kept.decode n 23) r ∧ SameAnswer (o, d') r := by
  have hrun : (outcome (Decode.value kept 9 16) .empty).bind (fun p =>
      (outcome (Decode.value kept 9 23) p.2).map (fun q =>
        (p.1.isOk, p.2.shared[16]?.isSome, verdict q.1))) = some (true, true, .ok ()) := by cbv
  obtain ⟨⟨o₁, d⟩, hfirst, hrun⟩ := Option.bind_eq_some_iff.mp hrun
  obtain ⟨⟨o, d'⟩, hsecond, heq⟩ := Option.map_eq_some_iff.mp hrun
  obtain ⟨hok, hknown, hverdict⟩ : o₁.isOk = true ∧ d.shared[16]?.isSome = true ∧ _ := by
    simpa only [Prod.mk.injEq] using heq
  have hd : Decoding kept true d := hok ▸ .call .start (.value hfirst)
  have hsame := (decode_independent hd hsecond .refl).1 rfl
  exact ⟨d, o, d', hd, hknown, hsecond, hverdict, hsame⟩

/-! ## Where it matters that calls succeeded -/

/-- An arena with one cell, a reference to an address that there is none of. -/
def dangling : Arena := ⟨(Cell.reserved ++ [3, 9999]).toArray, 99, .empty⟩

/-- Decoding the reference fails, and decoding it again succeeds. -/
theorem failure_is_forgotten : ∃ d v d', Decoding dangling false d ∧
    Ends (fun n => dangling.decode n 16) (.error (.invalidAddress 9999), d) ∧
    outcome (Decode.value dangling 9 16) d = some (.ok v, d') := by
  have hrun : (outcome (Decode.value dangling 9 16) .empty).bind (fun p =>
      (outcome (Decode.value dangling 9 16) p.2).map (fun q => (verdict p.1, verdict q.1))) =
      some (.error (.invalidAddress 9999), .ok ()) := by cbv
  obtain ⟨⟨o₁, d⟩, hfirst, hrun⟩ := Option.bind_eq_some_iff.mp hrun
  obtain ⟨⟨o, d'⟩, hsecond, heq⟩ := Option.map_eq_some_iff.mp hrun
  obtain ⟨herror, hok⟩ : verdict o₁ = .error (.invalidAddress 9999) ∧ verdict o = .ok () := by
    simpa using heq
  cases o₁ with
  | ok v => cases herror
  | error err =>
      cases herror
      cases o with
      | error err => cases hok
      | ok v =>
          refine ⟨d, v, d', .call .start (.value hfirst), ⟨9, fun n hn => ?_⟩, hsecond⟩
          exact (Decode.below dangling hn).1 16 .empty _ hfirst

end Mapling
