import Mapling.Proofs.Arena.Heap
import Mapling.Proofs.Arena.Refinement

/-! # Running keeps the arena well formed

Whatever an operation of a run does, whether it yields a result or fails, the cells are well formed
afterwards, and it fails for no other reason than the program itself or a lack of room (`Safe`).
Each operation is safe if the evaluator it calls is. -/

namespace Mapling

variable {env : Option Nat} {t : Tag} {h : Heap} {i n k : Nat} {w : Int} {r' : Run}
  {params : List Ident} {site : Site} {body : SitedExpr} {c : HeapCell} {op : BinaryOp} {p : Prim}

def ArenaError.isOrdinary : ArenaError → Bool
  | .eval _ | .exhausted _ => true
  | .corruptCell _ _ | .invalidAddress _ => false

/-! ## Writing -/

namespace Heap

variable {h : Heap} {before rest : List HeapCell} {c c' d : HeapCell} {addr : Nat}

def withCells (h : Heap) (cells : List HeapCell) : Heap := { h with cells }

/-- Replacing a cell by one of the same length moves no other cell. -/
theorem at_replace (hlength : c'.words.length = c.words.length)
    (hat : (h.withCells (before ++ c :: rest)).At addr d) :
    addr = h.after before ∧ d = c ∨ (h.withCells (before ++ c' :: rest)).At addr d := by
  obtain ⟨before', rest', heq, rfl⟩ := hat
  rcases List.append_eq_append_iff.mp heq with ⟨more, rfl, hmore⟩ | ⟨more, rfl, hmore⟩
  · cases more with
    | nil => exact .inl ⟨by simp [after, withCells], (List.cons.inj hmore).1.symm⟩
    | cons c1 more =>
      obtain ⟨rfl, rfl⟩ := List.cons.inj hmore
      refine .inr ⟨before ++ c' :: more, rest', by simp [withCells], ?_⟩
      simp only [after, HeapCell.allWords_append, HeapCell.allWords_cons, List.length_append,
        hlength]
      rfl
  · cases more with
    | nil => exact .inl ⟨by simp [after, withCells], (List.cons.inj hmore).1⟩
    | cons c1 more =>
      obtain ⟨rfl, rfl⟩ := List.cons.inj hmore
      exact .inr ⟨before', more ++ c' :: rest, by simp [withCells], rfl⟩

theorem extends_replace (h : Heap) (before rest : List HeapCell)
    (hlength : c'.words.length = c.words.length) (hkind : c'.kind = c.kind) :
    (h.withCells (before ++ c :: rest)).Extends (h.withCells (before ++ c' :: rest)) := by
  refine ⟨rfl, fun addr d hat => ?_⟩
  rcases at_replace hlength hat with ⟨rfl, rfl⟩ | hat'
  · exact ⟨c', ⟨before, rest, rfl, rfl⟩, hkind⟩
  · exact ⟨d, hat', rfl⟩

def IsEnv (h : Heap) (env : Option Nat) : Prop := ∀ p, env = some p → h.IsFrame p

theorem IsEnv.mono {h' : Heap} (hext : h.Extends h') (henv : h.IsEnv env) : h'.IsEnv env :=
  fun p hp => (henv p hp).mono hext

theorem IsEnv.linkBelow (henv : h.IsEnv env) : h.LinkBelow h.next env := by
  intro p hp
  obtain ⟨link, slots, hat⟩ := henv p hp
  exact ⟨hat.lt_next, link, slots, hat⟩

theorem At.isValue (hat : h.At addr c) (hc : c.tag ≠ .activation) : h.IsValue addr :=
  ⟨c.tag, .inr ⟨c, hat, rfl⟩, hc⟩

theorem HasTag.lt_next (ht : h.HasTag addr t) : addr < h.next := by
  rcases ht with ht | ⟨c, hat, -⟩
  · obtain ⟨hlt, -⟩ := List.getElem?_eq_some_iff.mp ht
    exact Nat.lt_of_lt_of_le (Nat.lt_trans hlt (by decide : _ < Cell.heapStart))
      (Nat.le_trans h.heapStart_le_below (Nat.le_add_right _ _))
  · exact hat.lt_next

theorem isValue_boolAddr (h : Heap) (b : Bool) : h.IsValue (Cell.boolAddr b) := by
  cases b <;> exact ⟨_, .inl rfl, nofun⟩

theorem isValue_nullAddr (h : Heap) : h.IsValue Cell.nullAddr := ⟨_, .inl rfl, nofun⟩

theorem isValue_unitAddr (h : Heap) : h.IsValue Cell.unitAddr := ⟨_, .inl rfl, nofun⟩

theorem isValue_primAddr (h : Heap) (p : Prim) : h.IsValue (Cell.primAddr p) := by
  cases p <;> exact ⟨_, .inl rfl, nofun⟩

/-! What the cell with a tag is. -/

theorem HasTag.int (ht : h.HasTag addr .int) : ∃ k, h.At addr (.int k) := by
  obtain ⟨c, hat, hc⟩ := ht.exists_at (by decide)
  cases c with
  | int k => exact ⟨k, hat⟩
  | _ => cases hc

theorem HasTag.pair (ht : h.HasTag addr .pair) : ∃ x y, h.At addr (.pair x y) := by
  obtain ⟨c, hat, hc⟩ := ht.exists_at (by decide)
  cases c with
  | pair x y => exact ⟨x, y, hat⟩
  | _ => cases hc

theorem HasTag.ref (ht : h.HasTag addr .ref) : ∃ x, h.At addr (.ref x) := by
  obtain ⟨c, hat, hc⟩ := ht.exists_at (by decide)
  cases c with
  | ref x => exact ⟨x, hat⟩
  | _ => cases hc

theorem HasTag.closure (ht : h.HasTag addr .closure) :
    ∃ n k link, h.At addr (.closure n k link) := by
  obtain ⟨c, hat, hc⟩ := ht.exists_at (by decide)
  cases c with
  | closure n k link => exact ⟨n, k, link, hat⟩
  | _ => cases hc

end Heap

namespace Placed

variable {forms : List (Nat × Form)} {h : Heap} {r : Run} {addr : Nat} {c : HeapCell}

theorem setDepth (hr : Placed forms h r) (n : Nat) : Placed forms h { r with depth := n } :=
  ⟨hr.words, hr.room, hr.cells, hr.bodies, hr.known, hr.numbers⟩

theorem toList_extend (r : Run) (cell : List Int) :
    (r.extend cell).arena.words.toList = r.arena.words.toList ++ cell := by
  change (r.arena.words.appendList cell).toList = _
  rw [Array.appendList_eq_append, Array.toList_appendList]

/-- Going outward by links. -/
theorem outward (hr : Placed forms h r) (d : Nat) {frame : Nat} (hframe : h.IsFrame frame) :
    ∃ o, ArenaEval.outward r.arena d frame = .ok o ∧ h.IsEnv o := by
  induction d generalizing frame with
  | zero =>
    refine ⟨some frame, rfl, ?_⟩
    rintro p hp
    cases hp
    exact hframe
  | succ d ih =>
    obtain ⟨link, slots, hat⟩ := hframe
    have hlink := Arena.fieldLink_eq (hr.field (i := Cell.activationLink) hat (by decide) rfl)
    simp only [ArenaEval.outward, hlink, Bind.bind, Except.bind]
    cases link with
    | none => exact ⟨none, rfl, fun _ hp => by cases hp⟩
    | some p => exact ih ((hr.cells _ _ hat).1 p rfl).2

theorem words_length_activation (link : Option Nat) (slots : List (Option Nat)) :
    (HeapCell.activation link slots).words.length = Cell.activationSlots + slots.length := by
  simp [HeapCell.words, HeapCell.fields, Cell.activationSlots]
  omega

variable {link : Option Nat}

variable (hr : Placed forms h r)
include hr

theorem activationEnd {slots : List (Option Nat)} (hat : h.At addr (.activation link slots)) :
    r.arena.activationEnd addr = .ok (addr + Cell.activationSlots + slots.length) := by
  simp only [Arena.activationEnd, Arena.tagWord, Arena.word_eq (hr.tagWord hat), Bind.bind,
    Except.bind, HeapCell.tag, if_true, hr.cellEnd hat, words_length_activation, Nat.add_assoc]

theorem slotWord {slots : List (Option Nat)} (hat : h.At addr (.activation link slots))
    {content : Option Nat} (hi : slots[i]? = some content) :
    r.arena.words[addr + Cell.activationSlots + i]? = some (HeapCell.slotWord content) := by
  rw [Nat.add_assoc]
  refine hr.getElem?_cell hat ?_
  rw [show Cell.activationSlots + i = i + 1 + 1 + 1 from Nat.add_comm _ _]
  simp [HeapCell.words, HeapCell.fields, hi]

theorem slot? {slots : List (Option Nat)} (hat : h.At addr (.activation link slots)) (i : Nat) :
    r.arena.slot? addr i = .ok (slots[i]?.map HeapCell.slotWord) := by
  simp only [Arena.slot?, hr.activationEnd hat, Bind.bind, Except.bind]
  by_cases hlt : i < slots.length
  · rw [if_pos (by omega), hr.slotWord hat (List.getElem?_eq_getElem hlt),
      List.getElem?_eq_getElem hlt]
    rfl
  · rw [if_neg (by omega), List.getElem?_eq_none (by omega)]
    rfl

/-- The slots of an activation are read as they are laid out. -/
theorem slots {link : Option Nat} {slots : List (Option Nat)}
    (hat : h.At addr (.activation link slots)) :
    r.arena.slots addr = .ok (slots.map HeapCell.slotWord) := by
  have hslots : (r.arena.words.extract (addr + Cell.activationSlots)
      (addr + Cell.activationSlots + slots.length)).toList = slots.map HeapCell.slotWord := by
    refine List.ext_getElem? (fun i => ?_)
    have hend := hat.end_le
    rw [← hr.size_eq, words_length_activation] at hend
    rw [Array.getElem?_toList, Array.getElem?_extract, List.getElem?_map]
    by_cases hlt : i < slots.length
    · rw [if_pos (by omega), hr.slotWord hat (List.getElem?_eq_getElem hlt)]
      simp [hlt]
    · rw [if_neg (by omega), List.getElem?_eq_none (by omega)]
      rfl
  simp only [Arena.slots, hr.activationEnd hat, Bind.bind, Except.bind, hslots]
  rfl

theorem arityOf (hat : h.At addr (.closure n k link)) : r.arena.arityOf addr = .ok n := by
  have hfield := hr.field (i := Cell.closureArity) hat (by decide) rfl
  rw [Arena.arityOf, hfield]
  rfl

theorem functionOf (hat : h.At addr (.closure n k link)) {f : Function}
    (hf : r.arena.code.functions[k]? = some f) : r.arena.functionOf addr = .ok f := by
  have hfield := hr.field (i := Cell.closureCode) hat (by decide) rfl
  rw [Arena.functionOf, hfield]
  simp only [Bind.bind, Except.bind, hf]
  rfl

/-- What a lexical address leads to is a slot, if it leads anywhere. -/
theorem slotAt (henv : h.IsEnv env) (x : Address) :
    ∃ o, ArenaEval.slotAt r.arena env x = .ok o ∧ ∀ frame w, o = some (frame, w) →
      w = Cell.uninit ∨ ∃ y : Nat, w = y ∧ h.IsValue y := by
  cases env with
  | none => exact ⟨none, rfl, nofun⟩
  | some frame =>
    obtain ⟨o, ho, hframe⟩ := hr.outward x.depth (henv frame rfl)
    simp only [ArenaEval.slotAt, ho, Bind.bind, Except.bind]
    cases o with
    | none => exact ⟨none, rfl, nofun⟩
    | some frame =>
      obtain ⟨link, slots, hat⟩ := hframe frame rfl
      simp only [hr.slot? hat]
      cases hslot : slots[x.offset]? with
      | none => exact ⟨none, rfl, nofun⟩
      | some content =>
        refine ⟨some (frame, HeapCell.slotWord content), rfl, ?_⟩
        intro frame' w hw
        cases hw
        cases content with
        | none => exact .inl rfl
        | some y =>
          exact .inr ⟨y, rfl, (hr.cells _ _ hat).2 y (List.mem_of_getElem? hslot)⟩

/-- A cell that refers to what is there already is appended. -/
theorem extend (hc : c.WellFormed r.arena.code h h.next)
    (hroom : c.words.length ≤ r.arena.remaining) : Placed forms (h.push c) (r.extend c.words) where
  words := by
    rw [toList_extend, hr.words, List.append_assoc, Heap.words, Heap.words, Heap.push,
      HeapCell.allWords_append]
    simp [HeapCell.allWords]
  room := by
    have hsize : (r.extend c.words).arena.words.size = r.arena.words.size + c.words.length := by
      rw [← Array.length_toList, toList_extend, List.length_append, Array.length_toList]
    rw [hsize]
    have hcapacity := hr.room
    unfold Arena.remaining Arena.used at hroom
    change _ ≤ r.arena.capacity
    omega
  cells := by
    intro addr d hat
    have hext := h.extends_push c
    rcases Heap.at_push hat with hat | ⟨rfl, rfl⟩
    · exact (hr.cells addr d hat).mono (.refl _ _) hext
    · exact hc.mono (.refl _ _) hext
  bodies := hr.bodies
  known := hr.known
  numbers := hr.numbers

/-- One word of a cell is changed. -/
theorem replace (hat : h.At addr c) {c' : HeapCell} (hkind : c'.kind = c.kind)
    (hwords : c'.words = c.words.set i w) (hi : i < c.words.length)
    (hc' : c'.WellFormed r.arena.code h addr) :
    ∃ h', h.Extends h' ∧ Placed forms h' (r.setWord (addr + i) w) := by
  obtain ⟨before, rest, heq, rfl⟩ := hat
  have hsame : h = h.withCells (before ++ c :: rest) := by rw [← heq]; rfl
  have hlength : c'.words.length = c.words.length := by rw [hwords, List.length_set]
  have hext := Heap.extends_replace h before rest hlength hkind
  rw [← hsame] at hext
  refine ⟨h.withCells (before ++ c' :: rest), hext, ?_, ?_, ?_, hr.bodies, hr.known, hr.numbers⟩
  · rw [Run.setWord, Array.toList_setIfInBounds, hr.words, Heap.words, Heap.words, heq, Heap.after,
      Heap.withCells, HeapCell.allWords_append, HeapCell.allWords_append, HeapCell.allWords_cons,
      HeapCell.allWords_cons, Nat.add_assoc, List.set_append_right _ _ (by omega),
      Nat.add_sub_cancel_left, List.set_append_right _ _ (by omega), Nat.add_sub_cancel_left,
      List.set_append_left _ _ hi, hwords]
  · have hroom := hr.room
    rw [Run.setWord, Array.size_setIfInBounds]
    exact hroom
  · intro addr d hat
    rcases Heap.at_replace hlength.symm hat with ⟨rfl, rfl⟩ | hat'
    · exact hc'.mono (.refl _ _) hext
    · rw [← hsame] at hat'
      exact (hr.cells addr d hat').mono (.refl _ _) hext

/-- More functions and names may be known. -/
theorem grow (hwords : r'.arena.words = r.arena.words)
    (hcapacity : r'.arena.capacity = r.arena.capacity) (hcode : r.arena.code.Grows 0 r'.arena.code)
    (hsites : r'.arena.code.sites = r.arena.code.sites)
    (hbodies : ∀ (k : Nat) f, r'.arena.code.functions[k]? = some f → f.body.forms ⊆ forms)
    (hknown : ∀ (num : Nat) k, r'.functions[num]? = some k → ∃ params body, (num, Form.function
      params body) ∈ forms ∧ r'.arena.code.HasFunction k params body) : Placed forms h r' where
  words := by rw [hwords, hr.words]
  room := by
    rw [hwords, hcapacity]
    exact hr.room
  cells := fun addr c hat => (hr.cells addr c hat).mono hcode (.refl h)
  bodies := hbodies
  known := hknown
  numbers := by
    rw [hsites]
    exact hr.numbers

/-- A function that is recorded belongs to its form. -/
theorem codeOf (hforms : (forms.map Prod.fst).Nodup)
    (hmem : (site.number, Form.function params body) ∈ forms) (hbody : body.forms ⊆ forms) :
    Placed forms h (r.codeOf params site body).2 ∧
      (r.codeOf params site body).2.arena.code.HasFunction (r.codeOf params site body).1
        params body := by
  unfold Run.codeOf
  cases hknown : r.functions[site.number]? with
  | some k =>
    obtain ⟨params', body', hmem', hf⟩ := hr.known _ _ hknown
    cases Expr.form_unique hforms hmem hmem'
    exact ⟨hr, hf⟩
  | none =>
    obtain ⟨⟨words, capacity, code⟩, depth, functions, letNames⟩ := r
    have hgrows := code.grows_addFunction 0 params site body
    have hnew := code.hasFunction_addFunction params site body
    refine ⟨hr.grow rfl rfl hgrows rfl (fun k f hf => ?_) (fun num k hk => ?_), hnew⟩
    · change (code.functions.push ⟨code.names.size, site, body⟩)[k]? = some f at hf
      rw [Array.getElem?_push] at hf
      split at hf
      · cases hf
        exact hbody
      · exact hr.bodies k f hf
    · change (functions.insert site.number code.functions.size)[num]? = some k at hk
      rw [Std.HashMap.getElem?_insert] at hk
      split at hk
      · rename_i heq
        obtain rfl := eq_of_beq heq
        cases hk
        exact ⟨params, body, hmem, hnew⟩
      · obtain ⟨params', body', hmem', hf⟩ := hr.known num k hk
        exact ⟨params', body', hmem', hf.mono hgrows⟩

theorem recordFrame (frame names : Nat) : Placed forms h (r.recordFrame frame names) :=
  hr.grow rfl rfl ⟨fun _ _ hf => hf, fun _ _ hx => hx, nofun⟩ rfl hr.bodies hr.known

theorem namesOf (site : Site) (names : List Ident) : Placed forms h (r.namesOf site names).2 := by
  unfold Run.namesOf
  dsimp only
  generalize (if names.isEmpty then none else some site.number) = key
  cases r.letNames[key]? with
  | some k => exact hr
  | none =>
    obtain ⟨⟨words, capacity, code⟩, depth, functions, letNames⟩ := r
    have hgrows := code.grows_addNames 0 names
    refine hr.grow rfl rfl hgrows rfl hr.bodies (fun num k hk => ?_)
    obtain ⟨params, body, hmem, hf⟩ := hr.known num k hk
    exact ⟨params, body, hmem, hf.mono hgrows⟩

end Placed

/-! ## Safety -/

/-- A result in `Q`, or an ordinary error. -/
def Granted {α : Type} (Q : Heap → α → Prop) (h : Heap) : Except ArenaError α → Prop
  | .ok a => Q h a
  | .error e => e.isOrdinary = true

/-- Whatever `x` does to a run that is laid out as `h`, the run is laid out as an extension of `h`
afterwards, and `x` yields a result in `Q` or fails with an ordinary error. -/
def Safe {α : Type} (forms : List (Nat × Form)) (h : Heap) (x : ArenaEval α)
    (Q : Heap → α → Prop) : Prop :=
  ∀ r o r', Placed forms h r → outcome x r = some (o, r') →
    ∃ h', h.Extends h' ∧ Placed forms h' r' ∧ Granted Q h' o

/-- Appending a cell that refers to what is there already. -/
theorem Placed.alloc {forms : List (Nat × Form)} {r : Run} {o : Except ArenaError Nat}
    (hr : Placed forms h r) (hc : c.WellFormed r.arena.code h h.next)
    (ho : outcome (ArenaEval.alloc c.words) r = some (o, r')) :
    ∃ h', h.Extends h' ∧ Placed forms h' r' ∧ Granted (fun h' addr => h'.At addr c) h' o := by
  have hout : outcome (ArenaEval.alloc c.words) r =
      some (r.onArena (fun a => a.alloc c.words)) := rfl
  rw [hout] at ho
  by_cases hroom : c.words.length ≤ r.arena.remaining
  · have halloc : r.onArena (fun a => a.alloc c.words) =
        (.ok r.arena.words.size, r.extend c.words) := by
      simp only [Run.onArena, Arena.alloc, if_pos hroom]
      rfl
    rw [halloc] at ho
    cases ho
    refine ⟨h.push c, h.extends_push c, hr.extend hc hroom, ?_⟩
    rw [Granted, hr.size_eq]
    exact Heap.at_next h c
  · have halloc : r.onArena (fun a => a.alloc c.words) =
        (.error (.exhausted r.arena.capacity), r) := by
      simp only [Run.onArena, Arena.alloc, if_neg hroom]
    rw [halloc] at ho
    cases ho
    exact ⟨h, .refl h, hr, rfl⟩

namespace Safe

variable {α β : Type} {forms : List (Nat × Form)} {h : Heap} {addr : Nat}
variable {Q : Heap → α → Prop} {x : ArenaEval α} {n y : Nat} {env : Option Nat} {a : α}

theorem pure (ha : Q h a) : Safe forms h (Pure.pure a : ArenaEval α) Q := by
  intro r o r' hr ho
  rw [outcome_pure] at ho
  cases ho
  exact ⟨h, .refl h, hr, ha⟩

theorem throw {e : ArenaError} (he : e.isOrdinary = true) :
    Safe forms h (MonadExcept.throw e : ArenaEval α) Q := by
  intro r o r' hr ho
  rw [outcome_throw] at ho
  cases ho
  exact ⟨h, .refl h, hr, he⟩

theorem fault (e : EvalError) : Safe forms h (ArenaEval.fault e) Q :=
  throw rfl

theorem exhausted : Safe forms h (ArenaEval.exhausted : ArenaEval α) Q :=
  fun _ _ _ _ ho => nomatch ho

theorem bind {Q' : Heap → β → Prop} {f : α → ArenaEval β} (hx : Safe forms h x Q)
    (hf : ∀ h' a, h.Extends h' → Q h' a → Safe forms h' (f a) Q') : Safe forms h (x >>= f) Q' := by
  intro r o r' hr ho
  rw [outcome_bind] at ho
  rcases hout : outcome x r with _ | ⟨e | a, r1⟩
  · rw [hout] at ho
    cases ho
  · rw [hout] at ho
    cases ho
    obtain ⟨h', hext, hr', he⟩ := hx r _ _ hr hout
    exact ⟨h', hext, hr', he⟩
  · rw [hout] at ho
    obtain ⟨h₁, hext, hr1, ha⟩ := hx r _ _ hr hout
    obtain ⟨h', hext', hr', hgranted⟩ := hf h₁ a hext ha r1 o r' hr1 ho
    exact ⟨h', hext.trans hext', hr', hgranted⟩

/-- A first part that changes nothing and has one result. -/
theorem bind_of_eq {Q : Heap → β → Prop} {f : α → ArenaEval β}
    (hx : ∀ r, Placed forms h r → outcome x r = some (.ok a, r)) (hf : Safe forms h (f a) Q) :
    Safe forms h (x >>= f) Q := by
  intro r o r' hr ho
  rw [outcome_bind_of_ok _ (hx r hr)] at ho
  exact hf r o r' hr ho

theorem mono {Q' : Heap → α → Prop} (hx : Safe forms h x Q) (hQ : ∀ h' a, Q h' a → Q' h' a) :
    Safe forms h x Q' := by
  intro r o r' hr ho
  obtain ⟨h', hext, hr', hgranted⟩ := hx r o r' hr ho
  refine ⟨h', hext, hr', ?_⟩
  cases o with
  | ok a => exact hQ h' a hgranted
  | error e => exact hgranted

/-- What holds of every extension of the heap holds of the one afterwards. -/
theorem keep {P : Heap → Prop} (hx : Safe forms h x Q) (hP : ∀ h', h.Extends h' → P h') :
    Safe forms h x (fun h' a => P h' ∧ Q h' a) := by
  intro r o r' hr ho
  obtain ⟨h', hext, hr', hgranted⟩ := hx r o r' hr ho
  refine ⟨h', hext, hr', ?_⟩
  cases o with
  | ok a => exact ⟨hP h' hext, hgranted⟩
  | error e => exact hgranted

/-- What every run with this layout says about the layout may be used. -/
theorem of_placed (hx : ∀ r, Placed forms h r → Safe forms h x Q) : Safe forms h x Q :=
  fun r o r' hr => hx r hr r o r' hr

/-! ### Reading -/

theorem bind_read {Q : Heap → β → Prop} {f : Arena → Except ArenaError α} {g : α → ArenaEval β}
    (hf : ∀ r, Placed forms h r → f r.arena = .ok a) (hg : Safe forms h (g a) Q) :
    Safe forms h (ArenaEval.read f >>= g) Q :=
  bind_of_eq (fun r hr => ArenaEval.outcome_read f (hf r hr)) hg

theorem read {f : Arena → Except ArenaError α}
    (hf : ∀ r, Placed forms h r → ∃ a, f r.arena = .ok a ∧ Q h a) :
    Safe forms h (ArenaEval.read f) Q := by
  intro r o r' hr ho
  obtain ⟨a, ha, hQ⟩ := hf r hr
  rw [ArenaEval.outcome_read f ha] at ho
  cases ho
  exact ⟨h, .refl h, hr, hQ⟩

theorem bind_get {Q : Heap → β → Prop} {g : Run → ArenaEval β} (hg : ∀ r, Safe forms h (g r) Q) :
    Safe forms h (get >>= g) Q := by
  intro r o r' hr ho
  rw [outcome_bind_of_ok _ (outcome_get r)] at ho
  exact hg r r o r' hr ho

theorem bind_modify {Q : Heap → β → Prop} {f : Run → Run} {g : PUnit → ArenaEval β}
    (hf : ∀ r, Placed forms h r → Placed forms h (f r)) (hg : Safe forms h (g ⟨⟩) Q) :
    Safe forms h (modify f >>= g) Q := by
  intro r o r' hr ho
  rw [outcome_bind_of_ok _ (outcome_modify f r)] at ho
  exact hg (f r) o r' (hf r hr) ho

theorem bind_modifyGet {Q : Heap → β → Prop} {f : Run → α × Run} {g : α → ArenaEval β}
    (hf : ∀ r, Placed forms h r → Placed forms h (f r).2) (hg : ∀ a, Safe forms h (g a) Q) :
    Safe forms h (modifyGet f >>= g) Q := by
  intro r o r' hr ho
  rw [outcome_bind_of_ok _ (outcome_modifyGet f r)] at ho
  exact hg _ (f r).2 o r' (hf r hr) ho

theorem bind_tag {Q : Heap → β → Prop} {g : Option Tag → ArenaEval β} (ht : h.HasTag addr t)
    (hg : Safe forms h (g (some t)) Q) : Safe forms h (ArenaEval.tag addr >>= g) Q := by
  refine bind_of_eq (fun r hr => ?_) hg
  rw [ArenaEval.tag, outcome_bind_of_ok _
    (ArenaEval.outcome_read _ (Arena.word_eq (hr.tagWord_of_hasTag ht))), Tag.ofWord?_word]
  rfl

theorem bind_shown {Q : Heap → β → Prop} {g : String → ArenaEval β}
    (hg : ∀ t, Safe forms h (g t) Q) : Safe forms h (ArenaEval.shown n addr >>= g) Q := by
  refine bind (Q := fun h' _ => h' = h) ?_ (fun h' t _ hh => hh ▸ hg t)
  intro r o r' hr ho
  rw [ArenaEval.outcome_shown] at ho
  rcases hd : r.arena.decode n addr with _ | ⟨_ | v, d⟩
  · rw [hd] at ho
    cases ho
  · rw [hd] at ho
    cases ho
    exact ⟨h, .refl h, hr, rfl⟩
  · rw [hd] at ho
    obtain ⟨t, -, ht⟩ := Option.map_eq_some_iff.mp ho
    cases ht
    exact ⟨h, .refl h, hr, rfl⟩

theorem mismatch {op : String} : Safe forms h (ArenaEval.mismatch n op addr) Q :=
  bind_shown (fun _ => fault _)

/-! ### Making cells -/

theorem alloc (hc : ∀ r, Placed forms h r → c.WellFormed r.arena.code h h.next) :
    Safe forms h (ArenaEval.alloc c.words) (fun h' addr => h'.At addr c) :=
  fun r _ _ hr ho => hr.alloc (hc r hr) ho

theorem allocInt (k : Int) : Safe forms h (ArenaEval.allocInt k) Heap.IsValue :=
  (alloc (c := .int k) (fun _ _ => trivial)).mono (fun _ _ hat => hat.isValue nofun)

theorem bind_int {Q : Heap → β → Prop} {g : Int → ArenaEval β} (ht : h.HasTag addr .int)
    (hg : ∀ k, Safe forms h (g k) Q) :
    Safe forms h (ArenaEval.read (fun a => a.field addr Cell.intValue) >>= g) Q := by
  obtain ⟨k, hat⟩ := ht.int
  exact bind_read (fun r hr => hr.field hat (by decide) rfl) (hg k)

/-! ### Operators -/

theorem unary {op : UnaryOp} (hv : h.IsValue addr) :
    Safe forms h (ArenaEval.unary n op addr) Heap.IsValue := by
  obtain ⟨t, ht, -⟩ := id hv
  refine bind_tag ht ?_
  cases op with
  | neg =>
    cases t with
    | int =>
      refine bind_int ht (fun k => ?_)
      cases negate k with
      | ok m => exact allocInt m
      | error e => exact fault e
    | _ => exact mismatch
  | not =>
    cases t with
    | bool b => exact pure (Heap.isValue_boolAddr h _)
    | _ => exact mismatch
  | deref =>
    cases t with
    | ref =>
      obtain ⟨x, hat⟩ := ht.ref
      refine read (fun r hr => ⟨x, Arena.fieldAddr_eq (hr.field hat (by decide) rfl), ?_⟩)
      exact hr.cells addr _ hat
    | _ => exact mismatch
  | ref =>
    refine (alloc (c := .ref addr) (fun _ _ => hv)).mono (fun _ _ hat => hat.isValue nofun)

theorem operand (hv : h.IsValue addr) :
    Safe forms h (ArenaEval.operand n op addr) (fun _ _ => True) := by
  obtain ⟨t, ht, -⟩ := hv
  refine bind_tag ht ?_
  cases t with
  | int =>
    obtain ⟨k, hat⟩ := ht.int
    exact read (fun r hr => ⟨k, hr.field hat (by decide) rfl, trivial⟩)
  | _ => exact mismatch

theorem arithmetic {x : Nat} (hx : h.IsValue x) (hy : h.IsValue y) :
    Safe forms h (ArenaEval.arithmetic n op x y) Heap.IsValue := by
  refine bind (operand hx) (fun h₁ k hext _ => ?_)
  refine bind (operand (hy.mono hext)) (fun h₂ m _ _ => ?_)
  cases op.onInts k m with
  | error e => exact fault e
  | ok v =>
    cases v with
    | int j => exact allocInt j
    | bool b => exact pure (Heap.isValue_boolAddr h₂ b)

/-- Comparing changes nothing. -/
theorem equals (n : Nat) {x : Nat} (hx : h.IsValue x) (hy : h.IsValue y) :
    Safe forms h (ArenaEval.equals n x y) (fun h' _ => h' = h) := by
  induction n generalizing x y with
  | zero => exact exhausted
  | succ n ih =>
    rw [ArenaEval.equals]
    split
    · exact pure rfl
    · obtain ⟨t, ht, -⟩ := hx
      obtain ⟨u, hu, -⟩ := hy
      refine bind_tag ht (bind_tag hu ?_)
      split
      · rename_i h1 h2
        cases h1
        cases h2
        exact bind_int ht (fun k => bind_int hu (fun m => pure rfl))
      · rename_i h1 h2
        cases h1
        cases h2
        obtain ⟨x1, y1, hat⟩ := ht.pair
        obtain ⟨x2, y2, hat'⟩ := hu.pair
        refine of_placed (fun r hr => ?_)
        obtain ⟨⟨-, hx1⟩, -, hy1⟩ := hr.cells _ _ hat
        obtain ⟨⟨-, hx2⟩, -, hy2⟩ := hr.cells _ _ hat'
        refine bind_read (fun r hr => Arena.fieldAddr_eq (hr.field hat (by decide) rfl)) ?_
        refine bind_read (fun r hr => Arena.fieldAddr_eq (hr.field hat' (by decide) rfl)) ?_
        refine bind (ih hx1 hx2) ?_
        rintro h' b - rfl
        cases b with
        | false => exact pure rfl
        | true =>
          refine bind_read (fun r hr => Arena.fieldAddr_eq (hr.field hat (by decide) rfl)) ?_
          refine bind_read (fun r hr => Arena.fieldAddr_eq (hr.field hat' (by decide) rfl)) ?_
          exact ih hy1.isValue hy2.isValue
      · exact pure rfl

/-! ### Variables and activations -/

/-- Looking up a variable is safe and gives a value. -/
theorem lookup (henv : h.IsEnv env) (x : Address) :
    Safe forms h (ArenaEval.lookup env x) Heap.IsValue := by
  refine bind (Q := fun h' o => h' = h ∧ ∀ frame w, o = some (frame, w) →
    w = Cell.uninit ∨ ∃ y : Nat, w = y ∧ h.IsValue y) ?_ ?_
  · refine read (fun r hr => ?_)
    obtain ⟨o, ho, hword⟩ := hr.slotAt henv x
    exact ⟨o, ho, rfl, hword⟩
  · rintro h' o - ⟨rfl, hword⟩
    cases o with
    | none => exact fault _
    | some place =>
      obtain ⟨frame, w⟩ := place
      dsimp only
      split
      · exact bind_get (fun r => fault _)
      · rename_i hne
        obtain rfl | ⟨y, rfl, hy⟩ := hword frame w rfl
        · exact absurd rfl hne
        · exact pure hy

/-- A new activation has its link and its slots. -/
theorem allocFrame (henv : h.IsEnv env) {slots : List (Option Nat)}
    (hslots : ∀ y, some y ∈ slots → h.IsValue y) (names : Nat) :
    Safe forms h (ArenaEval.allocFrame env (slots.map HeapCell.slotWord) names)
      (fun h' frame => ∃ slots', h'.At frame (.activation env slots') ∧
        slots'.length = slots.length) := by
  have hwords : Tag.activation.word :: Cell.linkWord env ::
      ((slots.map HeapCell.slotWord).length : Int) :: slots.map HeapCell.slotWord =
      (HeapCell.activation env slots).words := by
    simp [HeapCell.words, HeapCell.fields, HeapCell.tag]
  unfold ArenaEval.allocFrame
  rw [hwords]
  refine bind (alloc (fun r hr => ⟨henv.linkBelow, hslots⟩)) (fun h' frame _ hat => ?_)
  exact bind_modify (fun r hr => hr.recordFrame frame names) (pure ⟨slots, hat, rfl⟩)

/-- A word of a cell is changed. -/
theorem setField (c' : HeapCell) (hat : h.At addr c) (hi : 0 < i) (hlt : i < c.words.length)
    (hkind : c'.kind = c.kind) (hwords : c'.words = c.words.set i w)
    (hc' : ∀ r, Placed forms h r → c'.WellFormed r.arena.code h addr) :
    Safe forms h (ArenaEval.write (fun a => a.setField addr i w)) (fun _ _ => True) := by
  intro r o r' hr ho
  have hend := hat.end_le
  rw [ArenaEval.outcome_setField (hr.field hat hi (List.getElem?_eq_getElem hlt))
    (by rw [hr.size_eq]; omega)] at ho
  cases ho
  obtain ⟨h', hext, hr'⟩ := hr.replace hat hkind hwords hlt (hc' r hr)
  exact ⟨h', hext, hr', trivial⟩

theorem setReferent {x : Nat} (hat : h.At addr (.ref x)) (hy : h.IsValue y) :
    Safe forms h (ArenaEval.write (fun a => a.setField addr Cell.refReferent y))
      (fun _ _ => True) :=
  setField (.ref y) hat (by decide) (Nat.lt_succ_self _) rfl rfl (fun _ _ => hy)

/-- Writing a value to a slot of an activation is safe. -/
theorem setSlot {slots : List (Option Nat)} (hat : h.At addr (.activation env slots))
    (hi : i < slots.length) (hy : h.IsValue y) :
    Safe forms h (ArenaEval.write (fun a => a.setField addr (Cell.activationSlots + i) y))
      (fun _ _ => True) := by
  refine setField (.activation env (slots.set i (some y))) hat ?_ ?_ ?_ ?_ ?_
  · unfold Cell.activationSlots
    omega
  · simp only [HeapCell.words, HeapCell.fields, List.length_cons, List.length_map,
      Cell.activationSlots]
    omega
  · simp [HeapCell.kind, List.map_set]
  · have hplace : Cell.activationSlots + i = i + 1 + 1 + 1 := by
      unfold Cell.activationSlots
      omega
    rw [hplace]
    simp [HeapCell.words, HeapCell.fields, HeapCell.tag, List.map_set, HeapCell.slotWord]
  · intro r hr
    obtain ⟨hlink, hslots⟩ := hr.cells _ _ hat
    refine ⟨hlink, fun z hz => ?_⟩
    rcases List.mem_or_eq_of_mem_set hz with hz | hz
    · exact hslots z hz
    · cases hz
      exact hy

/-- A closure of a function that belongs to its form. -/
theorem allocClosure (hforms : (forms.map Prod.fst).Nodup) (henv : h.IsEnv env)
    (hmem : (site.number, Form.function params body) ∈ forms) (hbody : body.forms ⊆ forms) :
    Safe forms h (ArenaEval.allocClosure env params site body) Heap.IsValue := by
  intro r o r' hr ho
  unfold ArenaEval.allocClosure at ho
  rw [outcome_bind_of_ok _ (outcome_modifyGet _ r)] at ho
  obtain ⟨hr1, f, hf, -, hparams⟩ := hr.codeOf hforms hmem hbody
  have halloc := hr1.alloc (c := .closure params.length (r.codeOf params site body).1 env)
    ⟨⟨f, params, hf, hparams, rfl⟩, henv.linkBelow⟩ ho
  obtain ⟨h', hext, hr', hgranted⟩ := halloc
  refine ⟨h', hext, hr', ?_⟩
  cases o with
  | ok addr => exact Heap.At.isValue hgranted nofun
  | error e => exact hgranted

/-! ### Lists and primitives -/

theorem allocPair {x : Nat} (hx : h.IsValue x) (hy : h.IsList y) :
    Safe forms h (ArenaEval.alloc [Tag.pair.word, x, y]) Heap.IsValue := by
  obtain ⟨t, ht, -⟩ := id hx
  obtain ⟨u, hu, -⟩ := id hy
  exact (alloc (c := .pair x y) (fun _ _ => ⟨⟨ht.lt_next, hx⟩, hu.lt_next, hy⟩)).mono
    (fun _ _ hat => hat.isValue nofun)

/-- The part of a list is a value. -/
theorem select {part : Nat} (hv : h.IsValue addr)
    (hpart : part = Cell.pairHead ∨ part = Cell.pairTail) :
    Safe forms h (ArenaEval.select n p part addr) Heap.IsValue := by
  obtain ⟨t, ht, -⟩ := hv
  refine bind_tag ht ?_
  cases t with
  | pair =>
    obtain ⟨x, y, hat⟩ := ht.pair
    refine read (fun r hr => ?_)
    obtain ⟨⟨-, hx⟩, -, hy⟩ := hr.cells _ _ hat
    rcases hpart with rfl | rfl
    · exact ⟨x, Arena.fieldAddr_eq (hr.field hat (by decide) rfl), hx⟩
    · exact ⟨y, Arena.fieldAddr_eq (hr.field hat (by decide) rfl), hy.isValue⟩
  | null => exact fault _
  | _ => exact bind_shown (fun _ => fault _)

theorem primitive (hv : h.IsValue addr) :
    Safe forms h (ArenaEval.primitive n p addr) Heap.IsValue := by
  obtain ⟨t, ht, -⟩ := id hv
  refine bind_tag ht ?_
  cases p with
  | arity =>
    cases t with
    | prim q => exact allocInt _
    | closure =>
      obtain ⟨k, code, link, hat⟩ := ht.closure
      exact bind_read (fun r hr => hr.field hat (by decide) rfl) (allocInt _)
    | _ => exact mismatch
  | first => exact select hv (.inl rfl)
  | rest => exact select hv (.inr rfl)
  | cons => exact mismatch
  | _ => exact pure (Heap.isValue_boolAddr h _)

end Safe

end Mapling
