import Mapling.Proofs.Arena.Independence

/-! # Equality of cells and of their values

Two cells of a run are compared by their addresses, tags and fields, two values by their kinds and
by the identity of what they share. Both ways give the same answer if one decoder makes both values
(`Laid.exists_answer`). It makes one object for each reference and each closure, so the same object
stands for the same cell. A pair is decoded anew each time, but then its parts are compared, and
the second part of a pair is always a list. -/

namespace Mapling

variable {y addr : Nat} {a : Arena} {cells : List Nat} {forms : List (Nat × Form)} {r : Run}
  {b' b : Bool}

/-! ## The cells of a run can be decoded -/

/-- The references, the closures and the activations of a heap. -/
def Heap.nodes (h : Heap) : Set Node := fun
  | .shared p => h.HasTag p .ref ∨ h.HasTag p .closure
  | .frame p => h.IsFrame p

namespace Laid

variable {forms : List (Nat × Form)} {h : Heap} {r : Run} {addr : Nat} {t : Tag}

variable (hr : Laid forms h r)
include hr

theorem tagged (ht : h.HasTag addr t) : r.arena.Tagged addr t :=
  ⟨t.word, Arena.word_eq (hr.tagWord_of_hasTag ht), Tag.ofWord?_word t⟩

theorem hasTag (hv : h.IsValue addr) (htag : r.arena.Tagged addr t) : h.HasTag addr t := by
  obtain ⟨u, hu, -⟩ := hv
  cases htag.unique (hr.tagged hu)
  exact hu

/-- The parts of a pair have lower addresses, so the induction is on the address. -/
theorem inside (hv : h.IsValue addr) : Inside r.arena h.nodes addr := by
  induction addr using Nat.strong_induction_on with
  | _ addr ih =>
    obtain ⟨t, ht, hne⟩ := hv
    have htag := hr.tagged ht
    cases t with
    | int =>
      obtain ⟨k, hat⟩ := ht.int
      exact .int htag (hr.field hat (by decide) rfl)
    | bool b => exact .bool htag
    | null => exact .null htag
    | unit => exact .unit htag
    | prim p => exact .prim htag
    | pair =>
      obtain ⟨x, y, hat⟩ := ht.pair
      obtain ⟨⟨hlt, hx⟩, hlt', hy⟩ := hr.cells _ _ hat
      exact .pair htag (Arena.fieldAddr_eq (hr.field hat (by decide) rfl))
        (Arena.fieldAddr_eq (hr.field hat (by decide) rfl)) (ih x hlt hx) (ih y hlt' hy.isValue)
    | ref => exact .shared (.inl ht)
    | closure => exact .shared (.inr ht)
    | activation => exact absurd rfl hne

theorem linkInside {link : Option Nat} (hlink : h.LinkBelow addr link) :
    LinkInside r.arena h.nodes link := by
  induction addr using Nat.strong_induction_on generalizing link with
  | _ addr ih =>
    cases link with
    | none => exact .none
    | some p =>
      obtain ⟨hlt, outer, slots, hat⟩ := hlink p rfl
      exact .some ⟨outer, slots, hat⟩ (Arena.fieldLink_eq (hr.field hat (by decide) rfl))
        (ih p hlt (hr.cells _ _ hat).1)

/-- What the cells of a heap refer to are cells of it. -/
theorem closed : Closed r.arena h.nodes := by
  refine ⟨fun p hp => ?_, fun p hp => ?_⟩
  · rcases hp with ht | ht
    · obtain ⟨x, hat⟩ := ht.ref
      exact .inl ⟨hr.tagged ht, x, Arena.fieldAddr_eq (hr.field hat (by decide) rfl),
        hr.inside (hr.cells _ _ hat)⟩
    · obtain ⟨n, k, link, hat⟩ := ht.closure
      obtain ⟨⟨f, params, hf, hparams, -⟩, hlink⟩ := hr.cells _ _ hat
      have hcode : Decode.closureCode r.arena p = .ok (f, params) := by
        simp only [Decode.closureCode, hr.functionOf hat hf, bind, Except.bind, hparams]
        rfl
      exact .inr ⟨hr.tagged ht, _, link, hcode,
        Arena.fieldLink_eq (hr.field hat (by decide) rfl), hr.linkInside hlink⟩
  · obtain ⟨link, slots, hat⟩ := hp
    obtain ⟨hlink, hslots⟩ := hr.cells _ _ hat
    refine ⟨.some ⟨link, slots, hat⟩ (Arena.fieldLink_eq (hr.field hat (by decide) rfl))
      (hr.linkInside hlink), _, hr.slots hat, fun w hw => ?_⟩
    obtain ⟨content, hmem, rfl⟩ := List.mem_map.mp hw
    cases content with
    | none => exact .inl rfl
    | some x => exact .inr ⟨x, rfl, hr.inside (hslots x hmem)⟩

theorem healthy (hv : h.IsValue addr) : Healthy r.arena addr :=
  ⟨h.nodes, hr.closed, hr.inside hv⟩

/-- The second part of a pair is a list. -/
theorem parts (hv : h.IsValue addr) (htag : r.arena.Tagged addr .pair) {x : Nat}
    (hx : r.arena.fieldAddr addr Cell.pairHead = .ok x)
    (hy : r.arena.fieldAddr addr Cell.pairTail = .ok y) : h.IsValue x ∧ h.IsList y := by
  obtain ⟨x', y', hat⟩ := (hr.hasTag hv htag).pair
  cases hx.symm.trans (Arena.fieldAddr_eq (hr.field hat (by decide) rfl))
  cases hy.symm.trans (Arena.fieldAddr_eq (hr.field hat (by decide) rfl))
  obtain ⟨⟨-, hvx⟩, -, hly⟩ := hr.cells _ _ hat
  exact ⟨hvx, hly⟩

end Laid

/-! ### Addresses of values -/

/-- An arena has one sequence of cells. -/
theorem Arena.Jumps.cells_eq {cells' : List Nat} (h : a.Jumps addr cells)
    (h' : a.Jumps addr cells') :
    cells = cells' := by
  -- no cell starts where the words in use end
  have hstop : ∀ next, a.cellEnd a.used ≠ .ok next := by
    intro next hend
    have hnone : a.words[a.used]? = none := Array.getElem?_eq_none le_rfl
    simp only [Arena.cellEnd, Arena.tagWord, Arena.word, hnone, bind, Except.bind] at hend
    cases hend
  induction h generalizing cells' with
  | stop =>
    generalize hused : a.used = addr at h'
    cases h' with
    | stop => rfl
    | jump hend _ => exact absurd (hused ▸ hend) (hstop _)
  | @jump addr next cells hend hrest ih =>
    cases h' with
    | stop => exact absurd hend (hstop _)
    | jump hend' hrest' =>
      cases hend.symm.trans hend'
      rw [ih hrest']

variable {h : Heap}

theorem Laid.isValue (hr : Laid forms h r) (hcells : r.arena.Jumps Cell.heapStart cells)
    (hv : r.arena.ValueAt cells addr) : h.IsValue addr := by
  rcases hv with hlt | ⟨hmem, hne⟩
  · refine ⟨_, .inl (List.getElem?_eq_getElem hlt), fun hactivation => ?_⟩
    have hmem := List.getElem_mem hlt
    rw [hactivation] at hmem
    exact absurd hmem (by decide)
  · obtain ⟨cells', hcells', hall⟩ := hr.exists_jumps
    cases hcells.cells_eq hcells'
    obtain ⟨c, hat⟩ := (hall addr).mp hmem
    refine ⟨c.tag, .inr ⟨c, hat, rfl⟩, fun htag => hne ?_⟩
    rw [hr.tagWord_eq hat, htag]

/-- There is one cell for each of the tags that unique cells have. -/
theorem Heap.HasTag.addr_eq {x : Nat} {t : Tag} (hx : h.HasTag x t) (hy : h.HasTag y t)
    (ht : t ∈ Cell.uniqueTags) : x = y := by
  have hcell : ∀ c : HeapCell, c.tag ∉ Cell.uniqueTags := by
    intro c
    cases c <;> rw [HeapCell.tag] <;> decide
  have hnodup : Cell.uniqueTags.Nodup := by decide
  rcases hx with hx | ⟨c, -, rfl⟩
  · rcases hy with hy | ⟨c, -, rfl⟩
    · obtain ⟨hlt, heq⟩ := List.getElem?_eq_some_iff.mp hx
      obtain ⟨hlt', heq'⟩ := List.getElem?_eq_some_iff.mp hy
      exact (hnodup.getElem_inj_iff).mp (heq.trans heq'.symm)
    · exact absurd ht (hcell c)
  · exact absurd ht (hcell c)

/-! ## The two comparisons -/

/-- The comparison ends with the answer and leaves the state as it is. -/
def Answers {ε σ : Type} (x : Nat → ExceptT ε (StateT σ Option) Bool) (s : σ) (b : Bool) : Prop :=
  Ends (fun n => outcome (x n) s) (.ok b, s)

section

variable {ε σ : Type} {x : Nat → ExceptT ε (StateT σ Option) Bool} {s : σ} {b : Bool}

theorem Answers.yields (h : Answers x s b) : Yields x s (fun b' s' => b' = b ∧ s' = s) :=
  ⟨b, s, h, rfl, rfl⟩

theorem Yields.answers (h : Yields x s (fun b' s' => b' = b ∧ s' = s)) : Answers x s b := by
  obtain ⟨_, _, hends, rfl, rfl⟩ := h
  exact hends

theorem Answers.pure (s : σ) (b : Bool) :
    Answers (fun _ => (Pure.pure b : ExceptT ε (StateT σ Option) Bool)) s b :=
  ⟨0, fun _ _ => rfl⟩

/-- What is compared first decides, or it is up to what is compared next. -/
theorem Answers.andThen {y : Nat → ExceptT ε (StateT σ Option) Bool} (hx : Answers x s b)
    (hy : Answers y s b') :
    Answers (fun n => do if ← x n then y n else return false) s (b && b') := by
  refine Yields.answers (.bind hx.yields ?_)
  rintro first _ ⟨rfl, rfl⟩
  cases first with
  | false => exact (Answers.pure _ false).yields
  | true => exact hy.yields

end

namespace ArenaEval

variable {r : Run} {x y : Nat} {t u : Tag}

theorem outcome_tag (htag : r.arena.Tagged x t) : outcome (tag x) r = some (.ok (some t), r) := by
  obtain ⟨w, hw, ht⟩ := htag
  rw [tag, outcome_bind_of_ok _ (outcome_read _ hw), ht]
  rfl

theorem answers_self (r : Run) (x : Nat) : Answers (fun n => equals n x x) r true := by
  refine Ends.succ ⟨0, fun n _ => ?_⟩
  simp only [equals, if_true]
  rfl

theorem answers_int (hne : x ≠ y) (hx : r.arena.Tagged x .int) (hy : r.arena.Tagged y .int)
    {k m : Int} (hk : r.arena.field x Cell.intValue = .ok k)
    (hm : r.arena.field y Cell.intValue = .ok m) :
    Answers (fun n => equals n x y) r (k == m) := by
  refine Yields.answers (.succ ?_)
  simp only [equals, if_neg hne]
  refine .step _ r (outcome_tag hx) (.step _ r (outcome_tag hy) ?_)
  refine .step _ r (outcome_read _ hk) (.step _ r (outcome_read _ hm) ?_)
  exact (Answers.pure r _).yields

theorem answers_pair (hne : x ≠ y) (hx : r.arena.Tagged x .pair) (hy : r.arena.Tagged y .pair)
    {x1 x2 y1 y2 : Nat} (hx1 : r.arena.fieldAddr x Cell.pairHead = .ok x1)
    (hx2 : r.arena.fieldAddr x Cell.pairTail = .ok x2)
    (hy1 : r.arena.fieldAddr y Cell.pairHead = .ok y1)
    (hy2 : r.arena.fieldAddr y Cell.pairTail = .ok y2)
    (heads : Answers (fun n => equals n x1 y1) r b)
    (tails : Answers (fun n => equals n x2 y2) r b') :
    Answers (fun n => equals n x y) r (b && b') := by
  refine Yields.answers (.succ ?_)
  simp only [equals, if_neg hne]
  refine .step _ r (outcome_tag hx) (.step _ r (outcome_tag hy) ?_)
  refine .step _ r (outcome_read _ hx1) (.step _ r (outcome_read _ hy1) ?_)
  refine (heads.andThen (Yields.answers ?_)).yields
  exact .step _ r (outcome_read _ hx2) (.step _ r (outcome_read _ hy2) tails.yields)

/-- Different cells are the same value only if they are two integers or two pairs. -/
theorem answers_other (hne : x ≠ y) (hx : r.arena.Tagged x t) (hy : r.arena.Tagged y u)
    (hint : ¬ (t = .int ∧ u = .int)) (hpair : ¬ (t = .pair ∧ u = .pair)) :
    Answers (fun n => equals n x y) r false := by
  refine Yields.answers (.succ ?_)
  simp only [equals, if_neg hne]
  refine .step _ r (outcome_tag hx) (.step _ r (outcome_tag hy) ?_)
  split
  · rename_i ht hu
    exact absurd ⟨Option.some.inj ht, Option.some.inj hu⟩ hint
  · rename_i ht hu
    exact absurd ⟨Option.some.inj ht, Option.some.inj hu⟩ hpair
  · exact (Answers.pure r false).yields

end ArenaEval

namespace Eval

variable {V L : Type} {s : Store V L} (ev : Evaluator V L)

/-- Pairs are compared by comparing their heads and then their tails. -/
theorem answers_pair {i j i' j' : Nat} {v1 v2 w1 w2 : Value V L} (hv1 : s.slot i = .ready v1)
    (hv2 : s.slot j = .ready v2) (hw1 : s.slot i' = .ready w1) (hw2 : s.slot j' = .ready w2)
    (hlist : v2.isList = true) (hlist' : w2.isList = true)
    (heads : Answers (fun n => equals ev n v1 w1) s b)
    (tails : Answers (fun n => equals ev n v2 w2) s b')
    (hsame : i = i' ∧ j = j' → (b && b') = true) :
    Answers (fun n => equals ev n (.pair i j) (.pair i' j')) s (b && b') := by
  refine Yields.answers (.succ ?_)
  simp only [equals, equalsBy]
  by_cases hslots : i = i' ∧ j = j'
  · simp only [if_pos hslots, hsame hslots]
    exact (Answers.pure s true).yields
  · simp only [if_neg hslots]
    have hforce : ∀ {k : Nat} {v : Value V L}, s.slot k = .ready v → v.isList = true →
        Yields (fun n => forceTail n ev k) s (fun v' s' => v' = v ∧ s' = s) := by
      intro k v hslot hlist
      refine .of_outcome v s (fun n => ?_) ⟨rfl, rfl⟩
      rw [outcome_forceTail ev hslot, if_pos hlist]
    refine .step _ s (outcome_force hv1 _) (.step _ s (outcome_force hw1 _) ?_)
    refine (heads.andThen (Yields.answers (.bind (hforce hv2 hlist) ?_))).yields
    rintro _ _ ⟨rfl, rfl⟩
    refine .bind (hforce hw2 hlist') ?_
    rintro _ _ ⟨rfl, rfl⟩
    exact tails.yields

theorem answers_atom (s : Store V L) {v w : Value V L} (h : v.tag ≠ .pair ∨ w.tag ≠ .pair) :
    Answers (fun n => equals ev n v w) s (sameAtom v w) := by
  refine Ends.succ ⟨0, fun n _ => ?_⟩
  cases v with
  | pair i j =>
    cases w with
    | pair i' j' => exact absurd rfl (h.resolve_left (fun hne => hne rfl))
    | _ => rfl
  | _ => rfl

/-- Atoms that are the same have the same tag. -/
theorem tag_eq_of_sameAtom {v w : Value V L} (h : sameAtom v w = true) : v.tag = w.tag := by
  cases v <;> cases w <;> simp_all [sameAtom, Value.tag]

end Eval

/-! ## Cells and what one decoder makes of them -/

section

variable {a : Arena} {pending : Set Nat} {d : Decoder} {x y : Nat} {v w : CellValue}

/-- The cell of a value has the tag of the value. -/
theorem Consistent.tagged (hd : Consistent a pending d) (hv : DecodesTo a d x v) :
    a.Tagged x v.tag := by
  obtain ⟨t, htag, hreads⟩ := hv.readsAs
  cases t with
  | int =>
    obtain ⟨k, -, rfl⟩ := hreads
    exact htag
  | bool | null | unit | prim =>
    cases hreads
    exact htag
  | pair =>
    obtain ⟨_, _, _, _, _, _, -, -, rfl, -⟩ := hreads
    exact htag
  | ref =>
    obtain ⟨c, rfl, -⟩ := hd.ref htag hreads
    exact htag
  | closure =>
    obtain ⟨i, c, code, rfl, -⟩ := hd.closure htag hreads
    exact htag
  | activation => exact hreads.elim

/-- A reference and a closure are the ones remembered. -/
theorem DecodesTo.known (hv : DecodesTo a d x v) (htag : v.tag = .ref ∨ v.tag = .closure) :
    d.shared[x]? = some v := by
  cases hv with
  | atom hv =>
    cases hv with
    | shared _ _ hknown => exact hknown
    | _ => exact absurd htag (by simp [Value.tag])
  | pair => exact absurd htag (by simp [Value.tag])

/-- One object comes from one cell. -/
theorem Consistent.addr_eq (hd : Consistent a pending d) (hv : DecodesTo a d x v)
    (hw : DecodesTo a d y w) (h : SameObject v w) : x = y := by
  cases h with
  | ref c => exact hd.once x y _ _ (hv.known (.inl rfl)) (hw.known (.inl rfl)) (.ref c)
  | closure i c c' =>
    exact hd.once x y _ _ (hv.known (.inr rfl)) (hw.known (.inr rfl)) (.closure i c c')

/-- One cell gives one object. -/
theorem Consistent.sameObject (hd : Consistent a pending d)
    (htag : a.Tagged x .ref ∨ a.Tagged x .closure) (hv : DecodesTo a d x v)
    (hw : DecodesTo a d x w) : SameObject v w := by
  have hshared : ∀ {u : CellValue}, DecodesTo a d x u → u.tag = .ref ∨ u.tag = .closure :=
    fun hu => htag.imp (hd.tagged hu).unique (hd.tagged hu).unique
  cases Option.some.inj ((hv.known (hshared hv)).symm.trans (hw.known (hshared hw)))
  cases v with
  | ref c => exact .ref c
  | closure i c => exact .closure i c c
  | _ => exact absurd (hshared hv) (by simp [Value.tag])

end

section

variable {forms : List (Nat × Form)} {h : Heap} {r : Run} {pending : Set Nat} {d : Decoder}
  {x y : Nat} {v w : CellValue}

/-- Different cells hold different atoms, except that an integer may have many cells. -/
theorem Laid.sameAtom_eq_false (hr : Laid forms h r) (hd : Consistent r.arena pending d)
    (hv : DecodesTo r.arena d x v) (hw : DecodesTo r.arena d y w) (hx : h.IsValue x)
    (hy : h.IsValue y) (hne : x ≠ y) (hint : v.tag ≠ .int) : Eval.sameAtom v w = false := by
  rw [← Bool.not_eq_true]
  intro hsame
  have htag := Eval.tag_eq_of_sameAtom hsame
  have hunique : v.tag ∉ Cell.uniqueTags := by
    intro hmem
    have hyv := hr.hasTag hy (hd.tagged hw)
    rw [← htag] at hyv
    exact hne ((hr.hasTag hx (hd.tagged hv)).addr_eq hyv hmem)
  cases v with
  | int k => exact hint rfl
  | bool b => exact hunique (by cases b <;> decide)
  | null | unit => exact hunique (by decide)
  | prim p => exact hunique (by cases p <;> decide)
  | pair i j => cases w <;> cases hsame
  | ref c =>
    cases w with
    | ref c' =>
      cases eq_of_beq hsame
      exact hne (hd.addr_eq hv hw (.ref c))
    | _ => cases htag
  | closure i c =>
    cases w with
    | closure i' c' =>
      cases eq_of_beq hsame
      exact hne (hd.addr_eq hv hw (.closure i c c'))
    | _ => cases htag

/-- Different cells that are not both pairs. -/
theorem Laid.answers_atom (hr : Laid forms h r) (hd : Consistent r.arena pending d)
    (hv : DecodesTo r.arena d x v) (hw : DecodesTo r.arena d y w) (hx : h.IsValue x)
    (hy : h.IsValue y) (hne : x ≠ y) (hatom : v.tag ≠ .pair ∨ w.tag ≠ .pair) :
    Answers (fun n => ArenaEval.equals n x y) r (Eval.sameAtom v w) := by
  have htag := hd.tagged hv
  have htag' := hd.tagged hw
  by_cases hint : v.tag = .int ∧ w.tag = .int
  · obtain ⟨t, ht, hreads⟩ := hv.readsAs
    obtain ⟨t', ht', hreads'⟩ := hw.readsAs
    cases (htag.unique ht).symm.trans hint.1
    cases (htag'.unique ht').symm.trans hint.2
    obtain ⟨k, hk, rfl⟩ := hreads
    obtain ⟨m, hm, rfl⟩ := hreads'
    exact ArenaEval.answers_int hne ht ht' hk hm
  · have hfalse : Eval.sameAtom v w = false := by
      by_cases hv' : v.tag = .int
      · rw [← Bool.not_eq_true]
        exact fun hsame => hint ⟨hv', (Eval.tag_eq_of_sameAtom hsame).symm.trans hv'⟩
      · exact hr.sameAtom_eq_false hd hv hw hx hy hne hv'
    rw [hfalse]
    refine ArenaEval.answers_other hne htag htag' hint ?_
    exact fun hpair => hatom.elim (fun hne => hne hpair.1) (fun hne => hne hpair.2)

theorem Atom.tag_ne_pair (hd : Consistent a pending d) (hv : Atom a d x v) : v.tag ≠ .pair := by
  obtain ⟨t, ht, hne⟩ := hv.tag
  rw [(hd.tagged (.atom hv)).unique ht]
  exact hne

/-- The value of a list is a list. -/
theorem Laid.isList (hr : Laid forms h r) (hd : Consistent r.arena pending d)
    (hv : DecodesTo r.arena d x v) (hx : h.IsList x) : v.isList = true := by
  obtain ⟨t, ht, hlist⟩ := hx
  rw [← Value.isList_tag, (hd.tagged hv).unique (hr.tagged ht), hlist]

/-- Two values of one cell are the same. -/
theorem Laid.answers_self (hr : Laid forms h r) (hd : Consistent r.arena pending d)
    (hv : DecodesTo r.arena d x v) (hw : DecodesTo r.arena d x w) (hx : h.IsValue x)
    (ev : Evaluator Address Site) : Answers (fun n => Eval.equals ev n v w) d.store true := by
  induction hv generalizing w with
  | @atom x v hv =>
    cases hw with
    | atom hw =>
      cases hv.unique hw
      have hne := hv.tag_ne_pair hd
      have hself : Eval.sameAtom v v = true := by
        cases v <;> simp_all [Eval.sameAtom, Value.tag]
      have hanswer := Eval.answers_atom ev d.store (.inl hne : v.tag ≠ .pair ∨ v.tag ≠ .pair)
      rwa [hself] at hanswer
    | pair tag =>
      obtain ⟨t, ht, hne⟩ := hv.tag
      exact absurd (ht.unique tag) hne
  | @pair x x1 x2 i j v1 v2 tag hx1 hx2 hv1 hv2 head tail ihhead ihtail =>
    cases hw with
    | atom hw =>
      obtain ⟨t, ht, hne⟩ := hw.tag
      exact absurd (ht.unique tag) hne
    | pair _ hx1' hx2' hw1 hw2 head' tail' =>
      cases hx1.symm.trans hx1'
      cases hx2.symm.trans hx2'
      obtain ⟨hvalue, hlist⟩ := hr.parts hx tag hx1 hx2
      exact Eval.answers_pair ev hv1 hv2 hw1 hw2 (hr.isList hd tail hlist)
        (hr.isList hd tail' hlist) (ihhead head' hvalue) (ihtail tail' hlist.isValue)
        (fun _ => rfl)

/-- Comparing two cells and comparing their values gives the same answer. -/
theorem Laid.exists_answer (hr : Laid forms h r) (hd : Consistent r.arena pending d)
    (hv : DecodesTo r.arena d x v) (hw : DecodesTo r.arena d y w) (hx : h.IsValue x)
    (hy : h.IsValue y) : ∃ b, Answers (fun n => ArenaEval.equals n x y) r b ∧
      ∀ ev, Answers (fun n => Eval.equals ev n v w) d.store b := by
  induction hv generalizing y w with
  | @atom x v hv =>
    by_cases hxy : x = y
    · subst hxy
      exact ⟨true, ArenaEval.answers_self r x, hr.answers_self hd (.atom hv) hw hx⟩
    · have hne : v.tag ≠ .pair ∨ w.tag ≠ .pair := .inl (hv.tag_ne_pair hd)
      exact ⟨_, hr.answers_atom hd (.atom hv) hw hx hy hxy hne,
        fun ev => Eval.answers_atom ev d.store hne⟩
  | @pair x x1 x2 i j v1 v2 tag hx1 hx2 hv1 hv2 head tail ihhead ihtail =>
    have hv := DecodesTo.pair tag hx1 hx2 hv1 hv2 head tail
    by_cases hxy : x = y
    · subst hxy
      exact ⟨true, ArenaEval.answers_self r x, hr.answers_self hd hv hw hx⟩
    · cases hw with
      | atom hw =>
        have hne : (Value.pair i j : CellValue).tag ≠ .pair ∨ w.tag ≠ .pair :=
          .inr (hw.tag_ne_pair hd)
        exact ⟨_, hr.answers_atom hd hv (.atom hw) hx hy hxy hne,
          fun ev => Eval.answers_atom ev d.store hne⟩
      | @pair _ y1 y2 i' j' w1 w2 tag' hy1 hy2 hw1 hw2 head' tail' =>
        obtain ⟨hvx, hlx⟩ := hr.parts hx tag hx1 hx2
        obtain ⟨hvy, hly⟩ := hr.parts hy tag' hy1 hy2
        obtain ⟨b, hcells, hvalues⟩ := ihhead head' hvx hvy
        obtain ⟨b', hcells', hvalues'⟩ := ihtail tail' hlx.isValue hly.isValue
        refine ⟨b && b', ArenaEval.answers_pair hxy tag tag' hx1 hx2 hy1 hy2 hcells hcells',
          fun ev => Eval.answers_pair ev hv1 hv2 hw1 hw2 (hr.isList hd tail hlx)
            (hr.isList hd tail' hly) (hvalues ev) (hvalues' ev) ?_⟩
        -- one pair of slots holds one pair of parts, and these equal themselves
        rintro ⟨rfl, rfl⟩
        cases hv1.symm.trans hw1
        cases hv2.symm.trans hw2
        have hself := hr.answers_self hd head head hvx ev
        have hself' := hr.answers_self hd tail tail hlx.isValue ev
        cases (hvalues ev).unique hself
        cases (hvalues' ev).unique hself'
        rfl

end

/-! ## Equality and decoding -/

/-- A call of a decoder, in any state, for a value of a run. -/
theorem Laid.decode {clean : Bool} {d : Decoder} {x : Nat} (hr : Laid forms h r)
    (hd : Decoding r.arena clean d) (hx : h.IsValue x) :
    ∃ v d', Ends (fun n => outcome (Decode.value r.arena n x) d) (.ok v, d') ∧
      Decoding r.arena clean d' ∧ DecodesTo r.arena d' x v ∧ d.Later r.arena d' := by
  obtain ⟨v, d', ⟨N, hN⟩, -⟩ := (hr.healthy hx).yields d
  have hrun : outcome (Decode.value r.arena N x) d = some (.ok v, d') := hN N le_rfl
  have hcall : d.Call r.arena true d' := .value hrun
  exact ⟨v, d', ⟨N, hN⟩, Bool.and_true clean ▸ .call hd hcall, hd.decodesTo hrun,
    .single ⟨true, hcall⟩⟩

/-- `letrec f := map x to f; in cons(cons(f, cons(7, null)), cons(f, cons(7, null)))`: a closure in
its own environment, and two lists that hold it. -/
def heldTwice : AddressedExpr :=
  let cons (e1 e2 : AddressedExpr) : AddressedExpr :=
    .app .synthetic (.prim .synthetic .cons) [e1, e2]
  let list := cons (.var .synthetic ⟨0, 0⟩) (cons (.int .synthetic 7) (.null .synthetic))
  .letIn .synthetic .recursive
    [(.synthetic "f", .map .synthetic [.synthetic "x"] ⟨1⟩ (.var .synthetic ⟨1, 0⟩))] ⟨1⟩
    (cons list list)

end Mapling
