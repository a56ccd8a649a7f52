import Mapling.Proofs.Arena.Reading

/-! # Making and changing cells

Whenever the evaluator makes something and the run appends the cell for it, or the evaluator
writes a slot or a cell and the run the word that stands for it, the two match again. -/

namespace Mapling

variable {addr i y k p : Nat} {env : Env} {link : Option Nat} {o : Owner} {w : Value Address Layout}
  {body : SitedExpr} {site : Site} {names : List Ident}

namespace Run

def extend (r : Run) (cell : List Int) : Run :=
  { r with arena := { r.arena with words := r.arena.words.appendList cell } }

def setWord (r : Run) (p : Nat) (w : Int) : Run :=
  { r with arena := { r.arena with words := r.arena.words.setIfInBounds p w } }

end Run

namespace ArenaEval

/-- A cell is appended unless there is no room for it. -/
theorem outcome_alloc (cell : List Int) (r : Run) :
    (∃ c r', outcome (alloc cell) r = some (.error (.exhausted c), r')) ∨
      outcome (alloc cell) r = some (.ok r.arena.words.size, r.extend cell) := by
  obtain ⟨⟨words, capacity, code⟩, depth, functions, letNames⟩ := r
  have hout : outcome (alloc cell) ⟨⟨words, capacity, code⟩, depth, functions, letNames⟩ =
      some (Run.onArena ⟨⟨words, capacity, code⟩, depth, functions, letNames⟩
        (fun a => a.alloc cell)) := rfl
  rw [hout]
  by_cases hroom : cell.length ≤ (Arena.remaining ⟨words, capacity, code⟩)
  · right
    simp only [Run.onArena, Arena.alloc, if_pos hroom]
    rfl
  · left
    simp only [Run.onArena, Arena.alloc, if_neg hroom]
    exact ⟨_, _, rfl⟩

/-- An activation is made and its names are recorded, unless there is no room for it. -/
theorem outcome_allocFrame (outer : Option Nat) (slots : List Int) (names : Nat) (r : Run) :
    (∃ c r', outcome (allocFrame outer slots names) r = some (.error (.exhausted c), r')) ∨
      outcome (allocFrame outer slots names) r = some (.ok r.arena.words.size,
        (r.extend (Tag.activation.word :: Cell.linkWord outer :: (slots.length : Int) ::
          slots)).recordFrame r.arena.words.size names) := by
  unfold allocFrame
  rcases outcome_alloc
    (Tag.activation.word :: Cell.linkWord outer :: (slots.length : Int) :: slots) r
    with ⟨c, r', h⟩ | h
  · exact .inl ⟨c, r', outcome_bind_of_error _ h⟩
  · right
    rw [outcome_bind_of_ok _ h]
    rfl

theorem outcome_setField {r : Run} {w old : Int} (hfield : r.arena.field addr i = .ok old)
    (hlt : addr + i < r.arena.words.size) :
    outcome (write (fun a => a.setField addr i w)) r = some (.ok (), r.setWord (addr + i) w) := by
  obtain ⟨⟨words, capacity, code⟩, depth, functions, letNames⟩ := r
  have hout : outcome (write (fun a => a.setField addr i w))
      ⟨⟨words, capacity, code⟩, depth, functions, letNames⟩ =
      some (Run.onArena ⟨⟨words, capacity, code⟩, depth, functions, letNames⟩
        (fun a => a.setField addr i w)) := rfl
  rw [hout]
  have hused : addr + i < Arena.used ⟨words, capacity, code⟩ := hlt
  simp only [Run.onArena, Arena.setField, hfield, Arena.setWord, if_pos hused]
  rfl

end ArenaEval

/-! ## What the operations of the evaluator leave alone -/

namespace Owner

variable {s : Store Address Layout}

theorem within_newPair (x y : Slot Address Layout) (o : Owner) (h : o.Within s) :
    o.Within (s.newPair x y).2 := by
  cases o with
  | slot i =>
    have hi : i < s.slots.size := h
    change i < (s.newPair x y).2.slots.size
    rw [Store.size_newPair]
    omega
  | cell | closure => exact h

theorem same_newPair (x y : Slot Address Layout) (o : Owner) (h : o.Within s) :
    o.Same s (s.newPair x y).2 := by
  cases o with
  | slot i =>
    have hi : i < s.slots.size := h
    change (s.newPair x y).2.slot i = s.slot i
    rw [Store.slot_newPair, if_neg (by omega), if_neg (by omega)]
  | cell i => rfl
  | closure id => trivial

theorem within_newRef (v : Value Address Layout) (o : Owner) (h : o.Within s) :
    o.Within (s.newRef v).2 := by
  cases o with
  | slot i => exact h
  | cell i =>
    have hi : i < s.cells.size := h
    change i < (s.cells.push v).size
    rw [Array.size_push]
    omega
  | closure id => exact h

theorem same_newRef (v : Value Address Layout) (o : Owner) (h : o.Within s) :
    o.Same s (s.newRef v).2 := by
  cases o with
  | slot i => rfl
  | cell i =>
    have hi : i < s.cells.size := h
    change (s.newRef v).2.cell i = s.cell i
    simp [Store.newRef, Store.cell, Array.getD_eq_getD_getElem?, Array.getElem?_push,
      Nat.ne_of_lt hi]
  | closure id => trivial

theorem within_newClosure (c : Closure Address Layout) (o : Owner) (h : o.Within s) :
    o.Within (s.newClosure c).2 := by
  cases o with
  | closure id => exact Nat.lt_succ_of_lt h
  | _ => exact h

theorem within_newFrame (names : List String) (o : Owner) (h : o.Within s) :
    o.Within (s.newFrame names).2 := by
  cases o with
  | slot i =>
    have hi : i < s.slots.size := h
    change i < (s.newFrame names).2.slots.size
    rw [Store.size_newFrame]
    omega
  | cell | closure => exact h

theorem same_newFrame (names : List String) (o : Owner) : o.Same s (s.newFrame names).2 := by
  cases o with
  | slot i => exact Store.slot_newFrame s names i
  | cell i => rfl
  | closure id => trivial

theorem within_setSlot (i : Nat) (x : Slot Address Layout) (o : Owner) (h : o.Within s) :
    o.Within (s.setSlot i x) := by
  cases o with
  | slot j =>
    change j < (s.setSlot i x).slots.size
    rw [Store.size_setSlot]
    exact h
  | cell | closure => exact h

theorem same_setSlot (x : Slot Address Layout) (o : Owner) (h : o ≠ .slot i) :
    o.Same s (s.setSlot i x) := by
  cases o with
  | slot j =>
    change (s.setSlot i x).slot j = s.slot j
    rw [Store.slot_setSlot, if_neg]
    rintro ⟨rfl, -⟩
    exact h rfl
  | cell j => rfl
  | closure id => trivial

theorem within_setCell (i : Nat) (v : Value Address Layout) (o : Owner) (h : o.Within s) :
    o.Within (s.setCell i v) := by
  cases o with
  | slot j => exact h
  | cell j =>
    change j < (s.cells.setIfInBounds i v).size
    rw [Array.size_setIfInBounds]
    exact h
  | closure id => exact h

theorem same_setCell (v : Value Address Layout) (o : Owner) (h : o ≠ .cell i) :
    o.Same s (s.setCell i v) := by
  cases o with
  | slot j => rfl
  | cell j =>
    have hne : i ≠ j := by
      rintro rfl
      exact h rfl
    change (s.setCell i v).cell j = s.cell j
    simp [Store.setCell, Store.cell, Array.getD_eq_getD_getElem?, hne]
  | closure id => trivial

end Owner

variable {s : Store Address Layout}

theorem Store.Eager.setSlot (h : s.Eager) (i : Nat) (v : Value Address Layout) :
    (s.setSlot i (.ready v)).Eager := by
  intro j
  rw [Store.slot_setSlot]
  split
  · exact .inr ⟨v, rfl⟩
  · exact h j

theorem Store.Eager.newPair (h : s.Eager) (v w : Value Address Layout) :
    (s.newPair (.ready v) (.ready w)).2.Eager := by
  intro i
  rw [Store.slot_newPair]
  split
  · exact .inr ⟨v, rfl⟩
  · split
    · exact .inr ⟨w, rfl⟩
    · exact h i

theorem Store.Eager.newFrame (h : s.Eager) (names : List String) : (s.newFrame names).2.Eager := by
  intro i
  rw [Store.slot_newFrame]
  exact h i

section

variable {forms : List (Nat × Form)} {m : Machine} {ω ω' : World} {r : Run}
  {s s' : Store Address Layout}

theorem Rep.lt_length {v : Value Address Layout} (h : Rep ω v addr) : addr < ω.length := by
  have hlt : ∀ {p : Nat} {role : Role}, ω[p]? = some role → p < ω.length :=
    fun hp => (List.getElem?_eq_some_iff.mp hp).1
  cases h with
  | int tag => exact hlt tag
  | bool tag => exact hlt tag
  | null tag => exact hlt tag
  | unit tag => exact hlt tag
  | prim tag => exact hlt tag
  | pair tag => exact hlt tag
  | ref tag => exact hlt tag
  | closure tag => exact hlt tag

theorem EnvRep.lt_length (h : EnvRep ω env link) (a : Nat) (ha : link = some a) : a < ω.length := by
  cases h with
  | nil => cases ha
  | cons tag =>
    cases ha
    exact (List.getElem?_eq_some_iff.mp tag).1

/-- What had no word and is not new still has none. -/
theorem World.Later.free (h : ω.Later s ω' s') (ho : o.Within s) (hfree : ∀ p, ω.owner? p ≠ some o)
    (p : Nat) : ω'.owner? p ≠ some o := by
  intro hp
  by_cases hlt : p < ω.length
  · obtain ⟨more, rfl⟩ := h.grows
    rw [World.owner?, List.getElem?_append_left hlt] at hp
    exact hfree p hp
  · exact h.fresh p o (by omega) hp ho

namespace Matches

theorem words_extend (h : Matches forms m ω r s) (cell : List Int) (i : Nat) :
    (r.extend cell).arena.words[ω.length + i]? = cell[i]? := by
  have hlen : r.arena.words.toList.length = ω.length := by rw [Array.length_toList, h.size]
  rw [Run.extend, Array.appendList_eq_append, ← Array.getElem?_toList, Array.toList_appendList,
    List.getElem?_append_right (by omega), hlen]
  congr 1
  omega

/-- What there is not yet has no word. -/
theorem free_of_new (h : Matches forms m ω r s) (ho : ¬ o.Within s) (p : Nat) :
    ω.owner? p ≠ some o :=
  fun hp => ho (h.within p o hp)

theorem getElem?_new (ω : World) (roles : List Role) (i : Nat) :
    (ω ++ roles)[ω.length + i]? = roles[i]? := by
  rw [List.getElem?_append_right (by omega)]
  congr 1
  omega

/-- The evaluator makes something and the run appends the cell for it. -/
theorem make (h : Matches forms m ω r s) (cell : List Int) (roles : List Role)
    (hlen : cell.length = roles.length)
    (hsame : ∀ o : Owner, o.Within s → o.Same s s' ∧ o.Within s') (heager : s'.Eager)
    (hdepths : s'.depths = s.depths) (honce : (World.owners roles).Nodup)
    (hnew : ∀ o ∈ World.owners roles, o.Within s' ∧ ¬ o.Within s)
    (hholds : ∀ (i : Nat) (role : Role), roles[i]? = some role → (∀ w, cell[i]? = some w →
      (r.extend cell).arena.words[ω.length + i]? = some w) →
      role.Holds forms (ω ++ roles) (r.extend cell).arena s' (ω.length + i)) :
    Matches forms m (ω ++ roles) (r.extend cell) s' ∧ ω.Later s (ω ++ roles) s' := by
  have hs : Matches forms m ω r s' :=
    h.store (fun p o hp => (hsame o (h.within p o hp)).1) (fun o ho => (hsame o ho).2) heager
      hdepths
  refine ⟨hs.append cell hlen rfl (.refl _ _) rfl
    (hs.remembers.mono (CodeTable.Grows.refl 0 _) rfl rfl) (fun i role hi => ?_) honce ?_, ?_⟩
  · exact hholds i role hi (fun w hw => (h.words_extend cell i).trans hw)
  · exact fun o ho => ⟨(hnew o ho).1, h.free_of_new (hnew o ho).2⟩
  · exact .append (fun o ho => (hnew o ho).2) (fun o ho => (hsame o ho).2)

/-- An integer. -/
theorem newInt (h : Matches forms m ω r s) (k : Int) :
    ∃ ω', Matches forms m ω' (r.extend [Tag.int.word, k]) s ∧ ω.Later s ω' s ∧
      Rep ω' (.int k) r.arena.words.size := by
  have hsame : ∀ o : Owner, o.Same s s := fun o => by cases o <;> first | rfl | trivial
  have hmake := h.make [Tag.int.word, k] [.fixed Tag.int.word, .fixed k] rfl
    (fun o ho => ⟨hsame o, ho⟩) h.eager rfl List.nodup_nil
    (fun o ho => absurd ho List.not_mem_nil)
  obtain ⟨hm, hlater⟩ := hmake fun i role hi hword => by
    rcases i with _ | _ | i
    · cases hi
      exact hword _ rfl
    · cases hi
      exact hword _ rfl
    · cases hi
  refine ⟨_, hm, hlater, ?_⟩
  rw [h.size]
  exact .int (getElem?_new _ _ 0) (getElem?_new _ _ 1)

/-- The second part of a pair shows by its tag that it is a list. -/
theorem list_tag (hw : Rep ω w y) (hlist : w.isList = true) :
    ∃ t : Tag, t.isList ∧ ω[y]? = some (.fixed t.word) := by
  cases hw with
  | null tag => exact ⟨.null, rfl, tag⟩
  | pair tag => exact ⟨.pair, rfl, tag⟩
  | _ => cases hlist

variable {v : Value Address Layout} {x i : Nat}

variable (h : Matches forms m ω r s)
include h

/-- A pair. -/
theorem newPair (hv : Rep ω v x) (hw : Rep ω w y) (hlist : w.isList = true) :
    ∃ ω', Matches forms m ω' (r.extend [Tag.pair.word, (x : Int), (y : Int)])
        (s.newPair (.ready v) (.ready w)).2 ∧
      ω.Later s ω' (s.newPair (.ready v) (.ready w)).2 ∧
      Rep ω' (s.newPair (.ready v) (.ready w)).1 r.arena.words.size := by
  have hgrow := List.prefix_append ω
    [.fixed Tag.pair.word, .part s.slots.size x, .part (s.slots.size + 1) y]
  have hsize := Store.size_newPair s (.ready v) (.ready w)
  have hmake := h.make [Tag.pair.word, (x : Int), (y : Int)]
    [.fixed Tag.pair.word, .part s.slots.size x, .part (s.slots.size + 1) y] rfl
    (fun o ho => ⟨Owner.same_newPair _ _ o ho, Owner.within_newPair _ _ o ho⟩)
    (h.eager.newPair v w) rfl
  have honce : (World.owners
      [.fixed Tag.pair.word, .part s.slots.size x, .part (s.slots.size + 1) y]).Nodup := by
    change [Owner.slot s.slots.size, .slot (s.slots.size + 1)].Nodup
    simp
  have hnew : ∀ o ∈ World.owners
      [.fixed Tag.pair.word, .part s.slots.size x, .part (s.slots.size + 1) y],
      o.Within (s.newPair (.ready v) (.ready w)).2 ∧ ¬ o.Within s := by
    intro o ho
    rcases List.mem_pair.mp ho with rfl | rfl
    · exact ⟨by unfold Owner.Within; omega, by unfold Owner.Within; omega⟩
    · exact ⟨by unfold Owner.Within; omega, by unfold Owner.Within; omega⟩
  obtain ⟨hm, hlater⟩ := hmake honce hnew fun i role hi hword => by
    rcases i with _ | _ | _ | i
    · cases hi
      exact hword _ rfl
    · cases hi
      refine ⟨v, ?_, hword _ rfl, hv.mono hgrow⟩
      rw [Store.slot_newPair, if_pos rfl]
    · cases hi
      refine ⟨w, ?_, hword _ rfl, hw.mono hgrow⟩
      rw [Store.slot_newPair, if_neg (by omega), if_pos rfl]
    · cases hi
  refine ⟨_, hm, hlater, ?_⟩
  rw [h.size]
  obtain ⟨t, ht, hy⟩ := list_tag hw hlist
  exact .pair (getElem?_new _ _ 0) (getElem?_new _ _ 1) (getElem?_new _ _ 2) hv.lt_length
    hw.lt_length ⟨t, ht, World.getElem?_mono hgrow hy⟩

/-- A reference. -/
theorem newRef (hv : Rep ω v x) :
    ∃ ω', Matches forms m ω' (r.extend [Tag.ref.word, (x : Int)]) (s.newRef v).2 ∧
      ω.Later s ω' (s.newRef v).2 ∧ Rep ω' (s.newRef v).1 r.arena.words.size := by
  have hgrow := List.prefix_append ω [.fixed Tag.ref.word, .cell s.cells.size]
  have hmake := h.make [Tag.ref.word, (x : Int)] [.fixed Tag.ref.word, .cell s.cells.size] rfl
    (fun o ho => ⟨Owner.same_newRef v o ho, Owner.within_newRef v o ho⟩) h.eager rfl
    (List.nodup_singleton (Owner.cell s.cells.size))
  have hnew : ∀ o ∈ World.owners [.fixed Tag.ref.word, .cell s.cells.size],
      o.Within (s.newRef v).2 ∧ ¬ o.Within s := by
    intro o ho
    obtain rfl := List.mem_singleton.mp ho
    refine ⟨?_, Nat.lt_irrefl _⟩
    change s.cells.size < (s.cells.push v).size
    rw [Array.size_push]
    omega
  obtain ⟨hm, hlater⟩ := hmake hnew fun i role hi hword => by
    rcases i with _ | _ | i
    · cases hi
      exact hword _ rfl
    · cases hi
      have hcell : (s.newRef v).2.cell s.cells.size = v := by
        simp [Store.newRef, Store.cell, Array.getD_eq_getD_getElem?]
      refine ⟨x, hword _ rfl, ?_⟩
      rw [hcell]
      exact hv.mono hgrow
    · cases hi
  refine ⟨_, hm, hlater, ?_⟩
  rw [h.size]
  exact .ref (getElem?_new _ _ 0) (getElem?_new _ _ 1)

/-- A closure whose code is known. -/
theorem newClosure {c : Closure Address Layout} {params : List Ident}
    (hcode : r.arena.code.HasFunction k params body) (hsame : params.length = c.arity)
    (hforms : body.forms ⊆ forms) (hbody : body.unsited = c.body) (henv : EnvRep ω c.env link) :
    ∃ ω', Matches forms m ω'
        (r.extend [Tag.closure.word, (c.params.length : Int), (k : Int), Cell.linkWord link])
        (s.newClosure c).2 ∧
      ω.Later s ω' (s.newClosure c).2 ∧ Rep ω' (s.newClosure c).1 r.arena.words.size := by
  obtain ⟨f, hf, rfl, hnames⟩ := hcode
  have hgrow := List.prefix_append ω [.closure s.closures, .fixed c.arity, .code k f params,
    .fixed (Cell.linkWord link)]
  have hkept : ∀ o : Owner, o.Same s (s.newClosure c).2 :=
    fun o => by cases o <;> first | rfl | trivial
  have hmake := h.make
    [Tag.closure.word, (c.params.length : Int), (k : Int), Cell.linkWord link]
    [.closure s.closures, .fixed c.arity, .code k f params, .fixed (Cell.linkWord link)] rfl
    (fun o ho => ⟨hkept o, Owner.within_newClosure c o ho⟩) h.eager rfl
    (List.nodup_singleton (Owner.closure s.closures))
  have hnew : ∀ o ∈ World.owners [.closure s.closures, .fixed c.arity, .code k f params,
      .fixed (Cell.linkWord link)], o.Within (s.newClosure c).2 ∧ ¬ o.Within s := by
    intro o ho
    obtain rfl := List.mem_singleton.mp ho
    exact ⟨Nat.lt_succ_self _, Nat.lt_irrefl _⟩
  obtain ⟨hm, hlater⟩ := hmake hnew fun i role hi hword => by
    rcases i with _ | _ | _ | _ | i
    · cases hi
      exact hword _ rfl
    · cases hi
      exact hword _ rfl
    · cases hi
      exact ⟨hword _ rfl, hf, hnames, hforms⟩
    · cases hi
      exact hword _ rfl
    · cases hi
  refine ⟨_, hm, hlater, ?_⟩
  rw [h.size]
  exact .closure (getElem?_new _ _ 0) (getElem?_new _ _ 1) (getElem?_new _ _ 2) hsame hbody
    (getElem?_new _ _ 3) henv.lt_length (henv.mono hgrow)

/-! ## Slots and cells that change -/

theorem setSlot {late : Bool} (hp : ω[p]? = some (.slot i late)) (hv : Rep ω v x) :
    Matches forms m ω (r.setWord p x) (s.setSlot i (.ready v)) := by
  have howner : ω.owner? p = some (.slot i) := by
    rw [World.owner?, hp]
    rfl
  have hi : i < s.slots.size := h.within p _ howner
  refine h.update hp (w := (x : Int)) rfl rfl rfl rfl rfl ?_ ?_ (Owner.within_setSlot i _)
    (h.eager.setSlot i v) rfl
  · right
    refine ⟨v, x, ?_, ?_, hv⟩
    · rw [Store.slot_setSlot, if_pos ⟨rfl, hi⟩]
    · rw [Run.setWord, Array.getElem?_setIfInBounds, if_pos rfl, if_pos (h.lt_size hp)]
  · intro q o hq hne
    refine Owner.same_setSlot _ o ?_
    rintro rfl
    exact hne (h.once q p _ hq howner)

/-- Writing to a cell matches assigning to the reference that it represents. -/
theorem setCell (hp : ω[p]? = some (.cell i)) (hv : Rep ω v x) :
    Matches forms m ω (r.setWord p x) (s.setCell i v) := by
  have howner : ω.owner? p = some (.cell i) := by
    rw [World.owner?, hp]
    rfl
  have hi : i < s.cells.size := h.within p _ howner
  refine h.update hp (w := (x : Int)) rfl rfl rfl rfl rfl ?_ ?_ (Owner.within_setCell i _)
    h.eager rfl
  · have hcell : (s.setCell i v).cell i = v := by
      simp [Store.setCell, Store.cell, Array.getD_eq_getD_getElem?, hi]
    refine ⟨x, ?_, ?_⟩
    · rw [Run.setWord, Array.getElem?_setIfInBounds, if_pos rfl, if_pos (h.lt_size hp)]
    · rw [hcell]
      exact hv
  · intro q o hq hne
    refine Owner.same_setCell _ o ?_
    rintro rfl
    exact hne (h.once q p _ hq howner)

/-- Assigning to a reference writes the word of its cell. -/
theorem assign (hv : Rep ω (.ref i) addr) (hx : Rep ω v x) :
    outcome (ArenaEval.write (fun a => a.setField addr Cell.refReferent x)) r =
        some (.ok (), r.setWord (addr + Cell.refReferent) x) ∧
      Matches forms m ω (r.setWord (addr + Cell.refReferent) x) (s.setCell i v) := by
  have htag := h.words_tag hv
  cases hv with
  | ref tag referent =>
    have hlt := h.lt_size referent
    obtain ⟨old, hold, -⟩ := h.holds _ _ referent
    have hfield := Arena.field_of_tag htag rfl hlt (by decide) (by decide) hold
    exact ⟨ArenaEval.outcome_setField hfield hlt, h.setCell referent hx⟩

/-! ## Code and names -/

/-- A function that is recorded is there, with as many parameters, and so is all that was there
before. -/
theorem codeOf (hforms : Form.Identified forms) (harity : Form.SameArities forms)
    {params : List Ident}
    (hmem : (site.number, Form.function params body) ∈ forms) :
    Matches forms m ω (r.codeOf params site body).2 s ∧ ∃ params' : List Ident,
      params'.length = params.length ∧ (r.codeOf params site body).2.arena.code.HasFunction
        (r.codeOf params site body).1 params' body := by
  unfold Run.codeOf
  cases hknown : r.functions[site.number]? with
  | some k =>
    obtain ⟨params', body', hmem', hf⟩ := h.remembers.functions _ _ hknown
    obtain rfl := hforms.body hmem hmem'
    exact ⟨h, params', harity _ _ _ _ _ hmem hmem', hf⟩
  | none =>
    obtain ⟨⟨words, capacity, ⟨functions, names, frames, sites⟩⟩, depth, known, letNames⟩ := r
    have hgrows : CodeTable.Grows ω.length ⟨functions, names, frames, sites⟩
        ⟨functions.push ⟨names.size, site, body⟩, names.push params, frames, sites⟩ :=
      CodeTable.grows_addFunction _ _ params site body
    have hnew := CodeTable.hasFunction_addFunction ⟨functions, names, frames, sites⟩ params site
      body
    refine ⟨h.code rfl hgrows rfl ⟨fun num k hk => ?_, fun num k hk => ?_, fun k hk => ?_⟩, params,
      rfl, hnew⟩
    · change (known.insert site.number functions.size)[num]? = some k at hk
      rw [Std.HashMap.getElem?_insert] at hk
      split at hk
      · rename_i heq
        obtain rfl := eq_of_beq heq
        cases hk
        exact ⟨params, body, hmem, hnew⟩
      · obtain ⟨params', body', hmem', hf⟩ := h.remembers.functions num k hk
        exact ⟨params', body', hmem', hf.mono hgrows⟩
    · obtain ⟨xs, hmem', hx⟩ := h.remembers.letNames num k hk
      exact ⟨xs, hmem', hgrows.names _ _ hx⟩
    · exact hgrows.names _ _ (h.remembers.noNames k hk)

/-- Recording the names of a form leaves the arena matched and makes them known. -/
theorem namesOf (hforms : Form.Identified forms)
    (hmem : (site.number, Form.names names) ∈ forms) :
    Matches forms m ω (r.namesOf site names).2 s ∧
      (r.namesOf site names).2.arena.code.names[(r.namesOf site names).1]? = some names := by
  unfold Run.namesOf
  dsimp only
  generalize hkey : (if names.isEmpty then none else some site.number) = key
  have hnone : key = none → names = [] := by
    rintro rfl
    by_contra hne
    simp [hne] at hkey
  have hsome : ∀ num, key = some num → num = site.number := by
    rintro num rfl
    split at hkey
    · cases hkey
    · exact (Option.some.inj hkey).symm
  cases hknown : r.letNames[key]? with
  | some k =>
    refine ⟨h, ?_⟩
    cases key with
    | none =>
      obtain rfl := hnone rfl
      exact h.remembers.noNames k hknown
    | some num =>
      obtain rfl := hsome num rfl
      obtain ⟨xs, hmem', hx⟩ := h.remembers.letNames _ _ hknown
      obtain rfl := hforms.names hmem hmem'
      exact hx
  | none =>
    obtain ⟨⟨words, capacity, ⟨functions, table, frames, sites⟩⟩, depth, known, letNames⟩ := r
    have hgrows : CodeTable.Grows ω.length ⟨functions, table, frames, sites⟩
        ⟨functions, table.push names, frames, sites⟩ :=
      CodeTable.grows_addNames _ _ names
    have hnew : (table.push names)[table.size]? = some names := Array.getElem?_push_size
    refine ⟨h.code rfl hgrows rfl ⟨fun num k hk => ?_, fun num k hk => ?_, fun k hk => ?_⟩, hnew⟩
    · obtain ⟨params, body, hmem', hf⟩ := h.remembers.functions num k hk
      exact ⟨params, body, hmem', hf.mono hgrows⟩
    · change (letNames.insert key table.size)[some num]? = some k at hk
      rw [Std.HashMap.getElem?_insert] at hk
      split at hk
      · rename_i heq
        cases hk
        obtain rfl := hsome num (eq_of_beq heq)
        exact ⟨names, hmem, hnew⟩
      · obtain ⟨xs, hmem', hx⟩ := h.remembers.letNames num k hk
        exact ⟨xs, hmem', hgrows.names _ _ hx⟩
    · change (letNames.insert key table.size)[(none : Option Nat)]? = some k at hk
      rw [Std.HashMap.getElem?_insert] at hk
      split at hk
      · rename_i heq
        cases hk
        obtain rfl := hnone (eq_of_beq heq)
        exact hnew
      · exact hgrows.names _ _ (h.remembers.noNames k hk)

/-! ## Activations -/

/-- The activation of a frame whose slots have no words yet. What is in the slots has to be in
the words of the activation. -/
theorem newActivation (late : Bool) (frame : Frame) (words : List Int) {outer : Option Nat}
    (henv : EnvRep ω env outer) (hlen : words.length = frame.length)
    (hk : r.arena.code.names[k]? = some names)
    (hnamed : late = true → frame.map Binding.name = names.map Ident.name)
    (hnodup : (frame.map Binding.slot).Nodup)
    (hfree : ∀ b ∈ frame, b.slot < s.slots.size ∧ ∀ p, ω.owner? p ≠ some (.slot b.slot))
    (hslots : ∀ (i : Nat) b w, frame[i]? = some b → words[i]? = some w →
      (late = true ∧ s.slot b.slot = .uninit ∧ w = Cell.uninit) ∨
        ∃ v x, s.slot b.slot = .ready v ∧ w = ((x : Nat) : Int) ∧ Rep ω v x) :
    ∃ ω', Matches forms m ω'
        ((r.extend (Tag.activation.word :: Cell.linkWord outer :: (words.length : Int) ::
          words)).recordFrame r.arena.words.size k) s ∧
      EnvRep ω' (frame :: env) (some r.arena.words.size) ∧
      ∀ ω0 s0, World.Later ω0 s0 ω s → (∀ b ∈ frame, s0.slots.size ≤ b.slot) →
        ω0.Later s0 ω' s := by
  generalize hroles : Role.frame names :: .fixed (Cell.linkWord outer) ::
    .fixed (words.length : Int) :: frame.map (fun b => .slot b.slot late) = roles
  have howners : World.owners roles = (frame.map Binding.slot).map .slot := by
    subst hroles
    change (frame.map (fun b => Role.slot b.slot late)).filterMap Role.owner = _
    rw [List.filterMap_map, List.map_map]
    exact List.filterMap_eq_map_iff_forall_eq_some.mpr (fun _ _ => rfl)
  have hmem : ∀ o ∈ World.owners roles, ∃ b ∈ frame, o = .slot b.slot := by
    intro o ho
    rw [howners, List.map_map] at ho
    obtain ⟨b, hb, rfl⟩ := List.mem_map.mp ho
    exact ⟨b, hb, rfl⟩
  have hgrow := List.prefix_append ω roles
  have hslot : ∀ (i : Nat) b, frame[i]? = some b → roles[i + 3]? = some (.slot b.slot late) := by
    intro i b hb
    subst hroles
    simp [hb]
  have hcode : r.arena.code.Grows ω.length
      (r.arena.code.recordFrame r.arena.words.size k) := by
    refine ⟨fun _ _ hf => hf, fun _ _ hx => hx, fun p hp xs hx => ?_⟩
    have hne : (r.arena.words.size == p) = false := by
      rw [h.size]
      exact beq_false_of_ne (by omega)
    simpa [CodeTable.frameNames?, CodeTable.recordFrame, Std.HashMap.getElem?_insert, hne]
      using hx
  refine ⟨ω ++ roles, h.append (Tag.activation.word :: Cell.linkWord outer ::
    (words.length : Int) :: words) ?_ rfl hcode rfl (h.remembers.mono hcode rfl rfl) ?_ ?_ ?_, ?_,
    ?_⟩
  · subst hroles
    simp [hlen]
  · intro i role hi
    have hword := h.words_extend
      (Tag.activation.word :: Cell.linkWord outer :: (words.length : Int) :: words) i
    subst hroles
    rcases i with _ | _ | _ | i
    · cases hi
      refine ⟨hword, ?_⟩
      rw [← h.size]
      simpa [CodeTable.frameNames?, Run.recordFrame, CodeTable.recordFrame, Run.extend] using hk
    · cases hi
      exact hword
    · cases hi
      exact hword
    · simp only [List.getElem?_cons_succ, List.getElem?_map] at hi
      obtain ⟨b, hb, rfl⟩ := Option.map_eq_some_iff.mp hi
      obtain ⟨hlt, -⟩ := List.getElem?_eq_some_iff.mp hb
      have hw := List.getElem?_eq_getElem (l := words) (i := i) (by omega)
      rcases hslots i b _ hb hw with ⟨hlate, hs, hu⟩ | ⟨v, x, hs, hx, hv⟩
      · exact .inl ⟨hlate, hs, (hword.trans hw).trans (by rw [hu])⟩
      · exact .inr ⟨v, x, hs, (hword.trans hw).trans (by rw [hx]), hv.mono hgrow⟩
  · rw [howners]
    exact hnodup.map (fun _ _ heq => Owner.slot.inj heq)
  · intro o ho
    obtain ⟨b, hb, rfl⟩ := hmem o ho
    exact hfree b hb
  · have htag : (ω ++ roles)[ω.length]? = some (.frame names) := by
      subst hroles
      exact getElem?_new ω _ 0
    rw [h.size]
    refine .cons htag ?_ ?_ (fun i b hb => ?_) hnamed henv.lt_length (henv.mono hgrow)
    · subst hroles
      exact getElem?_new ω _ 1
    · subst hroles
      rw [← hlen]
      exact getElem?_new ω _ 2
    · have hnew := getElem?_new ω roles (i + 3)
      rw [hslot i b hb, ← Nat.add_assoc, Nat.add_right_comm] at hnew
      exact hnew
  · intro ω0 s0 hlater hnew
    refine ⟨hlater.grows.trans hgrow, fun p o hp ho => ?_, hlater.within⟩
    rcases World.owner?_append ho with ho | ⟨-, ho⟩
    · exact hlater.fresh p o hp ho
    · obtain ⟨b, hb, rfl⟩ := hmem o (World.mem_owners ho)
      exact Nat.not_lt.mpr (hnew b hb)

end Matches

end

end Mapling
