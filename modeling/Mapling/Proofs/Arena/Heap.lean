import Mapling.Proofs.Arena.Reading

/-! # The cells of an arena

Behind the unique cells the words of an arena are those of its cells, one after another. A `Heap`
lists the cells from some address on, and `Placed` is the invariant of a run: its words are those
before the heap and those of the heap, whose cells refer to each other, and to unique cells, as they
should. Cells are appended, and a reference or a slot may be changed; neither changes what kind of
cell stands at an address, nor any word before the heap (`Heap.Extends`).

If nothing but the unique cells is before the heap, it has all the cells of the arena (`Laid`). -/

namespace Mapling

inductive HeapCell where
  | int (k : Int)
  | pair (head tail : Nat)
  | ref (referent : Nat)
  | closure (arity code : Nat) (link : Option Nat)
  | activation (link : Option Nat) (slots : List (Option Nat))

namespace HeapCell

def tag : HeapCell → Tag
  | .int _ => .int
  | .pair _ _ => .pair
  | .ref _ => .ref
  | .closure _ _ _ => .closure
  | .activation _ _ => .activation

def slotWord : Option Nat → Int
  | some x => x
  | none => Cell.uninit

def fields : HeapCell → List Int
  | .int k => [k]
  | .pair x y => [x, y]
  | .ref x => [x]
  | .closure n k link => [n, k, Cell.linkWord link]
  | .activation link slots => Cell.linkWord link :: slots.length :: slots.map slotWord

def words (c : HeapCell) : List Int := c.tag.word :: c.fields

theorem words_length_pos (c : HeapCell) : 0 < c.words.length := Nat.succ_pos _

def kind : HeapCell → HeapCell
  | .ref _ => .ref 0
  | .activation link slots => .activation link (slots.map (fun _ => none))
  | c => c

end HeapCell

def HeapCell.allWords (cs : List HeapCell) : List Int := cs.flatMap HeapCell.words

theorem HeapCell.allWords_append (cs ds : List HeapCell) :
    allWords (cs ++ ds) = allWords cs ++ allWords ds :=
  List.flatMap_append

theorem HeapCell.allWords_cons (c : HeapCell) (cs : List HeapCell) :
    allWords (c :: cs) = c.words ++ allWords cs :=
  List.flatMap_cons

structure Heap where
  /-- The words before the cells. -/
  below : List Int
  cells : List HeapCell
  /-- The unique cells are before the others. -/
  reserved : Cell.reserved <+: below

namespace Heap

def words (h : Heap) : List Int := HeapCell.allWords h.cells

def after (h : Heap) (cs : List HeapCell) : Nat := h.below.length + (HeapCell.allWords cs).length

def next (h : Heap) : Nat := h.after h.cells

def At (h : Heap) (addr : Nat) (c : HeapCell) : Prop :=
  ∃ before rest, h.cells = before ++ c :: rest ∧ addr = h.after before

def push (h : Heap) (c : HeapCell) : Heap := { h with cells := h.cells ++ [c] }

variable {h h' : Heap} {addr : Nat} {c d : HeapCell}

theorem heapStart_le_below (h : Heap) : Cell.heapStart ≤ h.below.length :=
  h.reserved.length_le

theorem after_append (h : Heap) (cs ds : List HeapCell) :
    h.after (cs ++ ds) = h.after cs + (HeapCell.allWords ds).length := by
  rw [after, HeapCell.allWords_append, List.length_append, ← Nat.add_assoc, ← after]

theorem At.push (hat : h.At addr c) (d : HeapCell) : (h.push d).At addr c := by
  obtain ⟨before, rest, heq, rfl⟩ := hat
  exact ⟨before, rest ++ [d], by simp [Heap.push, heq], rfl⟩

theorem at_next (h : Heap) (c : HeapCell) : (h.push c).At h.next c := ⟨h.cells, [], rfl, rfl⟩

theorem at_push (hat : (h.push c).At addr d) : h.At addr d ∨ addr = h.next ∧ d = c := by
  obtain ⟨before, rest, heq, rfl⟩ := hat
  change h.cells ++ [c] = before ++ d :: rest at heq
  rcases List.eq_nil_or_concat rest with rfl | ⟨more, c', rfl⟩
  · obtain ⟨rfl, hd⟩ := List.append_inj' heq rfl
    exact .inr ⟨rfl, (List.singleton_inj.mp hd).symm⟩
  · have heq' : h.cells ++ [c] = (before ++ d :: more) ++ [c'] := by simpa using heq
    obtain ⟨hcells, -⟩ := List.append_inj' heq' rfl
    exact .inl ⟨before, more, hcells, rfl⟩

theorem At.end_le (hat : h.At addr c) : addr + c.words.length ≤ h.next := by
  obtain ⟨before, rest, heq, rfl⟩ := hat
  rw [next, heq, after_append, HeapCell.allWords_cons, List.length_append]
  omega

theorem At.lt_next (hat : h.At addr c) : addr < h.next := by
  have hend := hat.end_le
  have hpos := c.words_length_pos
  omega

/-! ## What may be referred to -/

/-- The unique cell or the cell at this address has the tag `t`. -/
def HasTag (h : Heap) (addr : Nat) (t : Tag) : Prop :=
  Cell.uniqueTags[addr]? = some t ∨ ∃ c, h.At addr c ∧ c.tag = t

def IsValue (h : Heap) (addr : Nat) : Prop := ∃ t, h.HasTag addr t ∧ t ≠ .activation

def IsList (h : Heap) (addr : Nat) : Prop := ∃ t, h.HasTag addr t ∧ t.isList = true

def IsFrame (h : Heap) (addr : Nat) : Prop := ∃ link slots, h.At addr (.activation link slots)

/-- A link in a cell leads nowhere or to an activation below the cell. -/
def LinkBelow (h : Heap) (addr : Nat) (link : Option Nat) : Prop :=
  ∀ p, link = some p → p < addr ∧ h.IsFrame p

/-- Every cell stays where it is and keeps its kind, and the words before stay as they are. -/
structure Extends (h h' : Heap) : Prop where
  below : h'.below = h.below
  cells : ∀ addr c, h.At addr c → ∃ c', h'.At addr c' ∧ c'.kind = c.kind

theorem Extends.refl (h : Heap) : h.Extends h := ⟨rfl, fun _ c hat => ⟨c, hat, rfl⟩⟩

theorem Extends.trans {h'' : Heap} (hext : h.Extends h') (hext' : h'.Extends h'') :
    h.Extends h'' := by
  refine ⟨hext'.below.trans hext.below, fun addr c hat => ?_⟩
  obtain ⟨c', hat', hkind⟩ := hext.cells addr c hat
  obtain ⟨c'', hat'', hkind'⟩ := hext'.cells addr c' hat'
  exact ⟨c'', hat'', hkind'.trans hkind⟩

theorem extends_push (h : Heap) (c : HeapCell) : h.Extends (h.push c) :=
  ⟨rfl, fun _ d hat => ⟨d, hat.push c, rfl⟩⟩

theorem tag_eq_of_kind_eq (hkind : c.kind = d.kind) : c.tag = d.tag := by
  cases c <;> cases d <;> first | rfl | cases hkind

theorem HasTag.mono (hext : h.Extends h') {t : Tag} (ht : h.HasTag addr t) :
    h'.HasTag addr t := by
  rcases ht with ht | ⟨c, hat, rfl⟩
  · exact .inl ht
  · obtain ⟨c', hat', hkind⟩ := hext.cells addr c hat
    exact .inr ⟨c', hat', tag_eq_of_kind_eq hkind⟩

theorem IsValue.mono (hext : h.Extends h') (hv : h.IsValue addr) : h'.IsValue addr := by
  obtain ⟨t, ht, hne⟩ := hv
  exact ⟨t, ht.mono hext, hne⟩

theorem IsList.mono (hext : h.Extends h') (hv : h.IsList addr) : h'.IsList addr := by
  obtain ⟨t, ht, hlist⟩ := hv
  exact ⟨t, ht.mono hext, hlist⟩

theorem IsList.isValue (hv : h.IsList addr) : h.IsValue addr := by
  obtain ⟨t, ht, hlist⟩ := hv
  refine ⟨t, ht, ?_⟩
  rintro rfl
  cases hlist

/-- An activation keeps its link and the number of its slots. -/
theorem Extends.activation (hext : h.Extends h') {link : Option Nat} {slots : List (Option Nat)}
    (hat : h.At addr (.activation link slots)) :
    ∃ slots', h'.At addr (.activation link slots') ∧ slots'.length = slots.length := by
  obtain ⟨c, hat', hkind⟩ := hext.cells addr _ hat
  cases c with
  | activation link' slots' =>
    simp only [HeapCell.kind, HeapCell.activation.injEq] at hkind
    obtain ⟨rfl, hslots⟩ := hkind
    exact ⟨slots', hat', by simpa using congrArg List.length hslots⟩
  | _ => cases hkind

theorem Extends.ref (hext : h.Extends h') {x : Nat} (hat : h.At addr (.ref x)) :
    ∃ y, h'.At addr (.ref y) := by
  obtain ⟨c, hat', hkind⟩ := hext.cells addr _ hat
  cases c with
  | ref y => exact ⟨y, hat'⟩
  | _ => cases hkind

theorem IsFrame.mono (hext : h.Extends h') (hf : h.IsFrame addr) : h'.IsFrame addr := by
  obtain ⟨link, slots, hat⟩ := hf
  obtain ⟨slots', hat', -⟩ := hext.activation hat
  exact ⟨link, slots', hat'⟩

theorem LinkBelow.mono (hext : h.Extends h') {link : Option Nat} (hl : h.LinkBelow addr link) :
    h'.LinkBelow addr link :=
  fun p hp => ⟨(hl p hp).1, (hl p hp).2.mono hext⟩

/-- The cell at an address with a tag that no unique cell has. -/
theorem HasTag.exists_at {t : Tag} (ht : h.HasTag addr t) (hnew : t ∉ Cell.uniqueTags) :
    ∃ c, h.At addr c ∧ c.tag = t := by
  rcases ht with ht | hat
  · exact absurd (List.mem_of_getElem? ht) hnew
  · exact hat

end Heap

/-! ## Cells that refer to each other as they should -/

def HeapCell.WellFormed (code : CodeTable) (h : Heap) (addr : Nat) : HeapCell → Prop
  | .int _ => True
  | .pair x y => (x < addr ∧ h.IsValue x) ∧ y < addr ∧ h.IsList y
  | .ref x => h.IsValue x
  | .closure n k link =>
    (∃ f params, code.functions[k]? = some f ∧ code.names[f.names]? = some params ∧
      n = params.length) ∧ h.LinkBelow addr link
  | .activation link slots => h.LinkBelow addr link ∧ ∀ x, some x ∈ slots → h.IsValue x

theorem HeapCell.WellFormed.mono {code code' : CodeTable} {h h' : Heap} {addr : Nat}
    {c : HeapCell} (hc : c.WellFormed code h addr) (hcode : code.Grows 0 code')
    (hext : h.Extends h') : c.WellFormed code' h' addr := by
  cases c with
  | int k => trivial
  | pair x y => exact ⟨⟨hc.1.1, hc.1.2.mono hext⟩, hc.2.1, hc.2.2.mono hext⟩
  | ref x => exact Heap.IsValue.mono hext hc
  | closure n k link =>
    obtain ⟨⟨f, params, hf, hparams, hn⟩, hlink⟩ := hc
    exact ⟨⟨f, params, hcode.function k f hf, hcode.names _ _ hparams, hn⟩, hlink.mono hext⟩
  | activation link slots =>
    exact ⟨hc.1.mono hext, fun x hx => (hc.2 x hx).mono hext⟩

/-- The words of a run are those before a heap and those of its cells, which are well formed, and
what the run remembers of functions belongs to the forms that may be evaluated. -/
structure Placed (forms : List (Nat × Form)) (h : Heap) (r : Run) : Prop where
  words : r.arena.words.toList = h.below ++ h.words
  room : r.arena.words.size ≤ r.arena.capacity
  cells : ∀ addr c, h.At addr c → c.WellFormed r.arena.code h addr
  bodies : ∀ (k : Nat) f, r.arena.code.functions[k]? = some f → f.body.forms ⊆ forms
  known : ∀ (num : Nat) k, r.functions[num]? = some k → ∃ params body,
    (num, Form.function params body) ∈ forms ∧ r.arena.code.HasFunction k params body
  numbers : ∀ f ∈ forms, f.1 < r.arena.code.sites

structure Laid (forms : List (Nat × Form)) (h : Heap) (r : Run) : Prop
    extends Placed forms h r where
  whole : h.below = Cell.reserved

namespace Placed

variable {forms : List (Nat × Form)} {h : Heap} {r : Run} {addr : Nat} {c : HeapCell}

/-! ## Reading -/

variable (hr : Placed forms h r)
include hr

theorem size_eq : r.arena.words.size = h.next := by
  rw [← Array.length_toList, hr.words, List.length_append]
  rfl

theorem getElem?_unique (hlt : addr < Cell.heapStart) :
    r.arena.words[addr]? = Cell.reserved[addr]? := by
  obtain ⟨more, hmore⟩ := h.reserved
  rw [← Array.getElem?_toList, hr.words, ← hmore, List.append_assoc, List.getElem?_append_left]
  exact hlt

theorem getElem?_cell (hat : h.At addr c) {i : Nat} {w : Int} (hw : c.words[i]? = some w) :
    r.arena.words[addr + i]? = some w := by
  obtain ⟨before, rest, heq, rfl⟩ := hat
  obtain ⟨hlt, -⟩ := List.getElem?_eq_some_iff.mp hw
  rw [← Array.getElem?_toList, hr.words, Heap.words, heq, HeapCell.allWords_append,
    HeapCell.allWords_cons, Heap.after, Nat.add_assoc, List.getElem?_append_right (by omega),
    Nat.add_sub_cancel_left, List.getElem?_append_right (by omega), Nat.add_sub_cancel_left,
    List.getElem?_append_left hlt, hw]

theorem tagWord (hat : h.At addr c) : r.arena.words[addr]? = some c.tag.word :=
  hr.getElem?_cell (i := 0) hat rfl

theorem tagWord_of_hasTag {t : Tag} (ht : h.HasTag addr t) :
    r.arena.words[addr]? = some t.word := by
  rcases ht with ht | ⟨c, hat, rfl⟩
  · obtain ⟨hlt, -⟩ := List.getElem?_eq_some_iff.mp ht
    have hreserved : Cell.reserved[addr]? = some t.word := by
      rw [Cell.reserved, List.getElem?_append_left (by simpa using hlt), List.getElem?_map, ht]
      rfl
    rw [hr.getElem?_unique (Nat.lt_trans hlt (by decide)), hreserved]
  · exact hr.tagWord hat

theorem cellEnd (hat : h.At addr c) : r.arena.cellEnd addr = .ok (addr + c.words.length) := by
  have hend : addr + c.words.length ≤ r.arena.words.size := by
    rw [hr.size_eq]
    exact hat.end_le
  refine Arena.cellEnd_eq (hr.tagWord hat) ?_ hend
  cases c with
  | activation link slots =>
    have hcount := hr.getElem?_cell (i := Cell.activationCount) hat rfl
    rw [HeapCell.tag, Arena.cellSize_activation hcount]
    simp [HeapCell.words, HeapCell.fields, Cell.activationSlots]
    omega
  | _ => exact Arena.cellSize_eq rfl _ _

theorem field (hat : h.At addr c) {i : Nat} {w : Int} (hi : 0 < i) (hw : c.words[i]? = some w) :
    r.arena.field addr i = .ok w := by
  obtain ⟨hlt, -⟩ := List.getElem?_eq_some_iff.mp hw
  exact Arena.field_eq (hr.cellEnd hat) hi (by omega) (hr.getElem?_cell hat hw)

end Placed

end Mapling
