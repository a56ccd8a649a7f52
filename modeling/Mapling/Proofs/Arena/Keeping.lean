import Mapling.Proofs.Arena.Congruence
import Mapling.Proofs.Arena.Refinement
import Mathlib

/-! # What a run keeps beside the words

Beside its words an arena has functions, lists of names, and for every activation the index of its
names. A run adds to all of these and changes none: functions and names are appended, and names are
recorded for an activation when its cell has just been made, at an address that had none
(`Run.Keeps`). The depth is the same before and after, also when an error crosses the calls that
raised it.

For what the names of an activation are, it also matters that an index is never recorded before
there are names at it (`Run.InOrder`). So each operation is considered from the states that have at
least so many names (`Tidy`): the index of a function's names is read, then the arguments are
evaluated, and only then it is recorded. -/

namespace Mapling

/-- What is recorded can be found: there are names at every index that is recorded, and an
activation for which names are recorded has been made. -/
structure Run.InOrder (r : Run) : Prop where
  functions : ∀ (k : Nat) f, r.arena.code.functions[k]? = some f → f.names < r.arena.code.names.size
  frames : ∀ p i : Nat, r.arena.code.frames[p]? = some i →
    p < r.arena.words.size ∧ i < r.arena.code.names.size
  listed : ∀ (key : Option Nat) (i : Nat), r.letNames[key]? = some i → i < r.arena.code.names.size

/-- Nothing that is recorded changes from `r` to `r'`, and the depth is the same. -/
structure Run.Keeps (r r' : Run) : Prop where
  depth : r'.depth = r.depth
  words : r.arena.words.size ≤ r'.arena.words.size
  functions : ∀ (k : Nat) f, r.arena.code.functions[k]? = some f →
    r'.arena.code.functions[k]? = some f
  names : ∀ (k : Nat) xs, r.arena.code.names[k]? = some xs → r'.arena.code.names[k]? = some xs
  frames : ∀ p < r.arena.words.size, r'.arena.code.frames[p]? = r.arena.code.frames[p]?

namespace Run.Keeps

variable {r r' r'' : Run}

theorem refl (r : Run) : r.Keeps r :=
  ⟨rfl, le_rfl, fun _ _ h => h, fun _ _ h => h, fun _ _ => rfl⟩

theorem trans (h : r.Keeps r') (h' : r'.Keeps r'') : r.Keeps r'' where
  depth := h'.depth.trans h.depth
  words := h.words.trans h'.words
  functions := fun k f hf => h'.functions k f (h.functions k f hf)
  names := fun k xs hx => h'.names k xs (h.names k xs hx)
  frames := fun p hp => (h'.frames p (hp.trans_le h.words)).trans (h.frames p hp)

theorem size_names_le (h : r.Keeps r') :
    r.arena.code.names.size ≤ r'.arena.code.names.size := by
  by_contra hlt
  have hlast : r'.arena.code.names.size < r.arena.code.names.size := by omega
  have hkept := h.names _ _ (Array.getElem?_eq_getElem hlast)
  rw [Array.getElem?_eq_none le_rfl] at hkept
  cases hkept

/-- Only the words change. -/
theorem of_code (hcode : r'.arena.code = r.arena.code) (hdepth : r'.depth = r.depth)
    (hwords : r.arena.words.size ≤ r'.arena.words.size) : r.Keeps r' where
  depth := hdepth
  words := hwords
  functions := fun k f hf => hcode ▸ hf
  names := fun k xs hx => hcode ▸ hx
  frames := fun p _ => by rw [hcode]

end Run.Keeps

namespace Run.InOrder

variable {r r' : Run}

/-- With nothing listed. -/
theorem of_empty
    (hfunctions : ∀ (k : Nat) f, r.arena.code.functions[k]? = some f →
      f.names < r.arena.code.names.size)
    (hframes : ∀ p i : Nat, r.arena.code.frames[p]? = some i →
      p < r.arena.words.size ∧ i < r.arena.code.names.size)
    (hnames : r.letNames = ∅) : r.InOrder := by
  refine ⟨hfunctions, hframes, fun key i hi => ?_⟩
  rw [hnames, Std.HashMap.getElem?_empty] at hi
  cases hi

theorem of_code (h : r.InOrder) (hcode : r'.arena.code = r.arena.code)
    (hnames : r'.letNames = r.letNames) (hwords : r.arena.words.size ≤ r'.arena.words.size) :
    r'.InOrder := by
  refine ⟨fun k f hf => ?_, fun p i hp => ?_, fun key i hi => ?_⟩
  · rw [hcode] at hf ⊢
    exact h.functions k f hf
  · rw [hcode] at hp ⊢
    exact ⟨(h.frames p i hp).1.trans_le hwords, (h.frames p i hp).2⟩
  · rw [hnames] at hi
    rw [hcode]
    exact h.listed key i hi

theorem recordFrame (h : r.InOrder) {frame names : Nat} (hframe : frame < r.arena.words.size)
    (hnames : names < r.arena.code.names.size) : (r.recordFrame frame names).InOrder := by
  refine ⟨h.functions, fun p i hp => ?_, h.listed⟩
  change (r.arena.code.frames.insert frame names)[p]? = some i at hp
  rw [Std.HashMap.getElem?_insert] at hp
  split at hp
  · rename_i heq
    obtain rfl := eq_of_beq heq
    cases hp
    exact ⟨hframe, hnames⟩
  · exact h.frames p i hp

/-- Names are appended. -/
theorem namesOf (h : r.InOrder) (site : Site) (names : List Ident) :
    (r.namesOf site names).2.InOrder ∧ r.Keeps (r.namesOf site names).2 ∧
      (r.namesOf site names).1 < (r.namesOf site names).2.arena.code.names.size := by
  unfold Run.namesOf
  dsimp only
  generalize (if names.isEmpty then none else some site.number) = key
  cases hknown : r.letNames[key]? with
  | some i => exact ⟨h, .refl r, h.listed key i hknown⟩
  | none =>
    obtain ⟨⟨words, capacity, code⟩, depth, functions, letNames⟩ := r
    have hsize : (code.names.push names).size = code.names.size + 1 := Array.size_push _
    refine ⟨⟨fun k f hf => ?_, fun p i hp => ?_, fun key' i hi => ?_⟩,
      ⟨rfl, le_rfl, fun _ _ hf => hf, (code.grows_addNames 0 names).names,
        fun _ _ => rfl⟩, ?_⟩
    · exact (h.functions k f hf).trans_le (by simp [CodeTable.addNames])
    · obtain ⟨hp, hi⟩ := h.frames p i hp
      exact ⟨hp, hi.trans_le (by simp [CodeTable.addNames])⟩
    · change (letNames.insert key code.names.size)[key']? = some i at hi
      rw [Std.HashMap.getElem?_insert] at hi
      change i < (code.names.push names).size
      split at hi
      · cases hi
        omega
      · have := h.listed key' i hi
        change i < code.names.size at this
        omega
    · change code.names.size < (code.names.push names).size
      omega

/-- So is a function, with the names of its parameters. -/
theorem codeOf (h : r.InOrder) (params : List Ident) (site : Site) (body : SitedExpr) :
    (r.codeOf params site body).2.InOrder ∧ r.Keeps (r.codeOf params site body).2 := by
  unfold Run.codeOf
  cases r.functions[site.number]? with
  | some k => exact ⟨h, .refl r⟩
  | none =>
    obtain ⟨⟨words, capacity, code⟩, depth, functions, letNames⟩ := r
    have hgrows := code.grows_addFunction 0 params site body
    have hsize : (code.names.push params).size = code.names.size + 1 := Array.size_push _
    refine ⟨⟨fun k f hf => ?_, fun p i hp => ?_, fun key i hi => ?_⟩,
      ⟨rfl, le_rfl, hgrows.function, hgrows.names, fun _ _ => rfl⟩⟩
    · change (code.functions.push ⟨code.names.size, site, body⟩)[k]? = some f at hf
      change f.names < (code.names.push params).size
      rw [Array.getElem?_push] at hf
      split at hf
      · cases hf
        change code.names.size < _
        omega
      · have := h.functions k f hf
        change f.names < code.names.size at this
        omega
    · obtain ⟨hp, hi⟩ := h.frames p i hp
      change i < code.names.size at hi
      refine ⟨hp, ?_⟩
      change i < (code.names.push params).size
      omega
    · have := h.listed key i hi
      change i < code.names.size at this
      change i < (code.names.push params).size
      omega

end Run.InOrder

/-! ## Computations that keep everything -/

/-- From every run in order with at least `k` lists of names, whatever comes of `x`, the run is in
order afterwards and nothing has changed. -/
def Tidy {α : Type} (k : Nat) (x : ArenaEval α) : Prop :=
  ∀ r o r', r.InOrder → k ≤ r.arena.code.names.size → outcome x r = some (o, r') →
    r'.InOrder ∧ r.Keeps r'

namespace Tidy

variable {α β : Type} {k n : Nat}
variable {x : ArenaEval α}

theorem mono {k' : Nat} (h : Tidy k x) (hk : k ≤ k') : Tidy k' x :=
  fun r o r' hr hsize ho => h r o r' hr (hk.trans hsize) ho

/-- What does not touch the run. -/
theorem of_same (h : ∀ r o r', outcome x r = some (o, r') → r' = r) : Tidy k x := by
  intro r o r' hr _ ho
  obtain rfl := h r o r' ho
  exact ⟨hr, .refl r'⟩

theorem pure (a : α) : Tidy k (pure a : ArenaEval α) :=
  of_same (fun r o r' ho => by cases ho; rfl)

theorem throw (e : ArenaError) : Tidy k (throw e : ArenaEval α) :=
  of_same (fun r o r' ho => by cases ho; rfl)

theorem exhausted : Tidy k (ArenaEval.exhausted : ArenaEval α) :=
  of_same (fun r o r' ho => by cases ho)

theorem bind {f : α → ArenaEval β} (hx : Tidy k x) (hf : ∀ a, Tidy k (f a)) : Tidy k (x >>= f) := by
  intro r o r' hr hsize ho
  rw [outcome_bind] at ho
  rcases hout : outcome x r with _ | ⟨e | a, r1⟩
  · rw [hout] at ho
    cases ho
  · rw [hout] at ho
    cases ho
    exact hx r _ _ hr hsize hout
  · rw [hout] at ho
    obtain ⟨hr1, hkeeps⟩ := hx r _ _ hr hsize hout
    obtain ⟨hr', hkeeps'⟩ := hf a r1 o r' hr1 (hsize.trans hkeeps.size_names_le) ho
    exact ⟨hr', hkeeps.trans hkeeps'⟩

theorem bind_get {f : Run → ArenaEval α} (hf : ∀ r, Tidy k (f r)) : Tidy k (get >>= f) :=
  fun r o r' hr hsize ho => hf r r o r' hr hsize ho

theorem ofExcept (o : Except ArenaError α) : Tidy k (ArenaEval.ofExcept o) := by
  cases o with
  | ok a => exact pure a
  | error e => exact throw e

/-! ### The arena -/

theorem read (f : Arena → Except ArenaError α) : Tidy k (ArenaEval.read f) :=
  bind_get (fun _ => ofExcept _)

theorem shown (n addr : Nat) : Tidy k (ArenaEval.shown n addr) := by
  refine bind_get (fun r => ?_)
  split
  · exact exhausted
  · exact pure _
  · split
    · exact pure _
    · exact exhausted

/-- Where a cell is made, or that there is no room for it. -/
theorem outcome_alloc {cell : List Int} {r r' : Run} {o : Except ArenaError Nat}
    (ho : outcome (ArenaEval.alloc cell) r = some (o, r')) :
    o = .ok r.arena.words.size ∧ r' = r.extend cell ∨
      o = .error (.exhausted r.arena.capacity) ∧ r' = r := by
  have hout : outcome (ArenaEval.alloc cell) r = some (r.onArena (fun a => a.alloc cell)) := rfl
  rw [hout] at ho
  by_cases hroom : cell.length ≤ r.arena.remaining
  · simp only [Run.onArena, Arena.alloc, if_pos hroom] at ho
    cases ho
    exact .inl ⟨rfl, rfl⟩
  · simp only [Run.onArena, Arena.alloc, if_neg hroom] at ho
    cases ho
    exact .inr ⟨rfl, rfl⟩

theorem size_extend (r : Run) (cell : List Int) :
    (r.extend cell).arena.words.size = r.arena.words.size + cell.length := by
  change (r.arena.words.appendList cell).size = _
  rw [Array.appendList_eq_append, ← Array.length_toList, Array.toList_appendList,
    List.length_append, Array.length_toList]

theorem alloc (cell : List Int) : Tidy k (ArenaEval.alloc cell) := by
  intro r o r' hr _ ho
  rcases outcome_alloc ho with ⟨-, rfl⟩ | ⟨-, rfl⟩
  · have hwords : r.arena.words.size ≤ (r.extend cell).arena.words.size := by
      rw [size_extend]
      omega
    exact ⟨hr.of_code rfl rfl hwords, .of_code rfl rfl hwords⟩
  · exact ⟨hr, .refl r'⟩

/-- The address of a new activation is one for which nothing is recorded. -/
theorem allocFrame (outer : Option Nat) (slots : List Int) {names : Nat} (hk : names < k) :
    Tidy k (ArenaEval.allocFrame outer slots names) := by
  intro r o r' hr hsize ho
  unfold ArenaEval.allocFrame at ho
  generalize hcell : (Tag.activation.word :: Cell.linkWord outer :: (slots.length : Int) :: slots) =
    cell at ho
  rw [outcome_bind] at ho
  rcases hout : outcome (ArenaEval.alloc cell) r with _ | ⟨o1, r1⟩
  · rw [hout] at ho
    cases ho
  · rw [hout] at ho
    rcases outcome_alloc hout with ⟨rfl, rfl⟩ | ⟨rfl, rfl⟩
    · cases ho
      have hwords : r.arena.words.size < (r.extend cell).arena.words.size := by
        rw [size_extend, ← hcell, List.length_cons]
        omega
      have hnames : names < (r.extend cell).arena.code.names.size := hk.trans_le hsize
      have hextended : (r.extend cell).InOrder := hr.of_code rfl rfl hwords.le
      refine ⟨hextended.recordFrame hwords hnames,
        ⟨rfl, hwords.le, fun _ _ h => h, fun _ _ h => h, fun p hp => ?_⟩⟩
      change (r.arena.code.frames.insert r.arena.words.size names)[p]? = _
      rw [Std.HashMap.getElem?_insert, if_neg]
      simp only [beq_iff_eq]
      omega
    · cases ho
      exact ⟨hr, .refl _⟩

/-- Writing a field changes nothing that is recorded. -/
theorem setField (addr i : Nat) (w : Int) :
    Tidy k (ArenaEval.write (fun a => a.setField addr i w)) := by
  intro r o r' hr _ ho
  have hout : outcome (ArenaEval.write (fun a => a.setField addr i w)) r =
      some (r.onArena (fun a => a.setField addr i w)) := rfl
  rw [hout] at ho
  simp only [Run.onArena, Arena.setField] at ho
  cases hfield : r.arena.field addr i with
  | error e =>
    simp only [hfield] at ho
    cases ho
    exact ⟨hr, .refl _⟩
  | ok old =>
    simp only [hfield, Arena.setWord] at ho
    split at ho
    · cases ho
      have hwords : r.arena.words.size ≤ (r.arena.words.setIfInBounds (addr + i) w).size := by
        rw [Array.size_setIfInBounds]
      exact ⟨hr.of_code rfl rfl hwords, .of_code rfl rfl hwords⟩
    · cases ho
      exact ⟨hr, .refl _⟩

/-- After names are recorded there are names at their index. -/
theorem bind_namesOf (site : Site) (names : List Ident) {f : Nat → ArenaEval α}
    (hf : ∀ i, Tidy (i + 1) (f i)) :
    Tidy 0 (modifyGet (fun r => r.namesOf site names) >>= f) := by
  intro r o r' hr _ ho
  rw [outcome_bind_of_ok _ (outcome_modifyGet _ r)] at ho
  obtain ⟨hr1, hkeeps, hlt⟩ := hr.namesOf site names
  obtain ⟨hr', hkeeps'⟩ := hf _ _ o r' hr1 hlt ho
  exact ⟨hr', hkeeps.trans hkeeps'⟩

/-- There are names at the index that a function has. -/
theorem bind_functionOf (addr : Nat) {f : Function → ArenaEval α}
    (hf : ∀ fn, Tidy (fn.names + 1) (f fn)) :
    Tidy 0 (ArenaEval.read (fun a => a.functionOf addr) >>= f) := by
  intro r o r' hr _ ho
  cases hfn : r.arena.functionOf addr with
  | error e =>
    have hread : outcome (ArenaEval.read (fun a => a.functionOf addr)) r =
        some (.error e, r) := by
      rw [ArenaEval.read, outcome_bind_of_ok _ (outcome_get r), hfn]
      rfl
    rw [outcome_bind_of_error _ hread] at ho
    cases ho
    exact ⟨hr, .refl _⟩
  | ok fn =>
    rw [outcome_bind_of_ok _ (ArenaEval.outcome_read _ hfn)] at ho
    have hmem : ∃ i : Nat, r.arena.code.functions[i]? = some fn := by
      simp only [Arena.functionOf, Bind.bind, Except.bind] at hfn
      split at hfn
      · cases hfn
      · rename_i w hw
        split at hfn
        · rename_i found hfound
          cases hfn
          split at hfound
          · exact ⟨_, hfound⟩
          · cases hfound
        · cases hfn
    obtain ⟨i, hi⟩ := hmem
    exact hf fn r o r' hr (hr.functions i fn hi) ho

theorem codeOf (params : List Ident) (site : Site) (body : SitedExpr) :
    Tidy k (modifyGet (fun r => r.codeOf params site body) : ArenaEval Nat) := by
  intro r o r' hr _ ho
  cases ho
  exact hr.codeOf params site body

/-- The depth is lowered again whatever comes of the call. -/
theorem nested {limit : Nat} {x : ArenaEval Nat} (hx : Tidy k x) :
    Tidy k (ArenaEval.nested limit x) := by
  intro r o r' hr hsize ho
  unfold ArenaEval.nested ArenaEval.enter at ho
  simp only [bind_assoc] at ho
  rw [outcome_bind_of_ok _ (outcome_get r)] at ho
  split at ho
  · rw [outcome_bind_of_ok _ (outcome_modify _ r), Follows.outcome_ascend] at ho
    obtain ⟨⟨o1, r1⟩, ho1, heq⟩ := Option.map_eq_some_iff.mp ho
    cases heq
    obtain ⟨hr1, hkeeps⟩ := hx { r with depth := r.depth + 1 } o1 r1
      (hr.of_code rfl rfl le_rfl) hsize ho1
    have hdepth := hkeeps.depth
    refine ⟨hr1.of_code rfl rfl le_rfl, ⟨?_, hkeeps.words, hkeeps.functions, hkeeps.names,
      hkeeps.frames⟩⟩
    change r1.depth - 1 = r.depth
    change r1.depth = r.depth + 1 at hdepth
    omega
  · cases ho
    exact ⟨hr, .refl _⟩

def congruence (limit : Nat) : ArenaCongruence limit limit where
  Rel x _ := Tidy 0 x
  pure := pure
  throw := throw
  exhausted := exhausted
  bind := bind
  read _ := read _
  shown := shown
  name _ _ := bind_get (fun _ => pure _)
  alloc := alloc
  setField := setField
  codeOf := codeOf
  frame site names outer slots _ _ hf := bind_namesOf site names (fun i =>
    bind (allocFrame outer slots (Nat.lt_succ_self i)) (fun frame =>
      (hf frame).mono (Nat.zero_le _)))
  call addr _ _ _ _ hx hf := bind_functionOf addr (fun function => bind (read _) (fun outer =>
    bind (hx.mono (Nat.zero_le _)) (fun slots =>
      bind (allocFrame outer slots (Nat.lt_succ_self _)) (fun frame =>
        nested ((hf (some frame) function.body).mono (Nat.zero_le _))))))

end Tidy

/-! ## Programs -/

/-- A program starts at no depth, with nothing listed, and changes nothing that is recorded. -/
theorem Run.InOrder.program {r r' : Run} {limit n : Nat} {e : AddressedExpr}
    {o : Except ArenaError Nat} (h : r.InOrder) (hrun : r.program limit n e = some (o, r')) :
    r'.InOrder ∧ (r.prepare e).2.Keeps r' := by
  have hprepared : (r.prepare e).2.InOrder := .of_empty h.functions h.frames rfl
  exact (Tidy.congruence limit).eval n none _ _ o r' hprepared (Nat.zero_le _) hrun

end Mapling
