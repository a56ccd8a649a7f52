import Mapling.Proofs.Arena.Reading
import Mapling.Proofs.Value.Alike

/-! # Cells that can be decoded

An arena may hold anything, so decoding a cell may fail, or never end. It succeeds where the cell
lies in a region that is closed: a set of references, closures and activations whose fields can be
read and lead only to each other, by way of pairs (`Closed`). A decoder in any state, whatever it
remembers, decodes a cell of a closed region, and remembers nothing but cells of the region
afterwards that it did not know before (`Healthy.yields`). References of the region may lead back
to themselves, and so may closures through the activations they were made in; decoding ends because
every reference, closure and activation is decoded once. -/

namespace Mapling

variable {n p limit x : Nat} {d : Decoder} {t : Tag} {α β : Type}

/-! ## More fuel keeps what was decoded -/

/-- More fuel keeps the outcomes of decoding. -/
theorem Decode.below (a : Arena) {n' : Nat} (hn : n ≤ n') :
    (∀ addr, Below (value a n addr) (value a n' addr)) ∧
    (∀ addr, Below (reference a n addr) (reference a n' addr)) ∧
    (∀ addr, Below (closure a n addr) (closure a n' addr)) ∧
    (∀ link, Below (frame a n link) (frame a n' link)) ∧
    ∀ bs ws, Below (fill a n bs ws) (fill a n' bs ws) := by
  induction n generalizing n' with
  | zero =>
    refine ⟨?_, ?_, ?_, ?_, ?_⟩ <;> intros <;> exact .of_none (fun _ => rfl) _
  | succ n ih =>
    obtain ⟨n', rfl⟩ : ∃ m, n' = m + 1 := ⟨n' - 1, by omega⟩
    obtain ⟨ihv, ihr, ihc, ihf, ihl⟩ := ih (Nat.le_of_succ_le_succ hn)
    refine ⟨fun addr => ?_, fun addr => ?_, fun addr => ?_, fun link => ?_, fun bs ws => ?_⟩
    · rw [value, value]
      refine .bind (.refl _) (fun d => ?_)
      split
      · exact .refl _
      · refine .bind (.refl _) (fun w => ?_)
        split
        · exact .refl _
        · exact .refl _
        · exact .refl _
        · exact .refl _
        · exact .refl _
        · exact .bind (.refl _) (fun _ => .bind (ihv _)
            (fun _ => .bind (.refl _) (fun _ => .bind (ihv _) (fun _ => .refl _))))
        · exact ihr addr
        · exact ihc addr
        · exact .refl _
        · exact .refl _
    · rw [reference, reference]
      exact .bind (.refl _) (fun _ => .bind (.refl _) (fun _ => .bind (.refl _)
        (fun _ => .bind (ihv _) (fun _ => .refl _))))
    · rw [closure, closure]
      exact .bind (.refl _) (fun _ => .bind (.refl _) (fun _ => .bind (ihf _)
        (fun _ => .refl _)))
    · cases link with
      | none =>
        rw [frame, frame]
        exact .refl _
      | some addr =>
        rw [frame, frame]
        refine .bind (.refl _) (fun d => ?_)
        split
        · exact .refl _
        · exact .bind (.refl _) (fun _ => .bind (ihf _) (fun _ => .bind (.refl _)
            (fun _ => .bind (.refl _) (fun _ => .bind (.refl _)
            (fun _ => .bind (ihl _ _) (fun _ => .refl _))))))
    · cases bs with
      | nil => cases ws <;> exact .refl _
      | cons b bs =>
        cases ws with
        | nil => exact .refl _
        | cons w ws =>
          rw [fill, fill]
          split
          · exact .bind (.refl _) (fun _ => .bind (ihv _) (fun _ => .bind (.refl _)
              (fun _ => ihl bs ws)))
          · exact ihl bs ws

/-! ## Regions of cells -/

/-- A cell that a decoder remembers: a reference or a closure, or an activation. -/
inductive Node where
  | shared (addr : Nat)
  | frame (addr : Nat)

def Decoder.known (d : Decoder) : Set Node := fun
  | .shared p => d.shared[p]?.isSome
  | .frame p => d.envs[p]?.isSome

theorem Decoder.shared_mem_known : .shared p ∈ d.known ↔ d.shared[p]?.isSome := Iff.rfl

theorem Decoder.frame_mem_known : .frame p ∈ d.known ↔ d.envs[p]?.isSome := Iff.rfl

def Arena.Tagged (a : Arena) (addr : Nat) (t : Tag) : Prop :=
  ∃ w, a.tagWord addr = .ok w ∧ Tag.ofWord? w = some t

theorem Arena.Tagged.unique {a : Arena} {addr : Nat} {t' : Tag} (h : a.Tagged addr t)
    (h' : a.Tagged addr t') : t = t' := by
  obtain ⟨w, hw, ht⟩ := h
  obtain ⟨w', hw', ht'⟩ := h'
  rw [hw] at hw'
  cases hw'
  rw [ht] at ht'
  exact Option.some.inj ht'

section

variable (a : Arena) (X : Set Node)

/-- The cell is one of the region, or leads to such cells by way of pairs. -/
inductive Inside : Nat → Prop
  | int {addr : Nat} {k : Int} (tag : a.Tagged addr .int)
      (field : a.field addr Cell.intValue = .ok k) : Inside addr
  | bool {addr : Nat} {b : Bool} (tag : a.Tagged addr (.bool b)) : Inside addr
  | null {addr : Nat} (tag : a.Tagged addr .null) : Inside addr
  | unit {addr : Nat} (tag : a.Tagged addr .unit) : Inside addr
  | prim {addr : Nat} {p : Prim} (tag : a.Tagged addr (.prim p)) : Inside addr
  | pair {addr x y : Nat} (tag : a.Tagged addr .pair)
      (hx : a.fieldAddr addr Cell.pairHead = .ok x) (hy : a.fieldAddr addr Cell.pairTail = .ok y)
      (head : Inside x) (tail : Inside y) : Inside addr
  | shared {addr : Nat} (mem : .shared addr ∈ X) : Inside addr

/-- The link leads to an activation of the region, and so on to the outermost one. -/
inductive LinkInside : Option Nat → Prop
  | none : LinkInside none
  | some {addr : Nat} {link : Option Nat} (mem : .frame addr ∈ X)
      (hlink : a.fieldLink addr Cell.activationLink = .ok link) (outer : LinkInside link) :
      LinkInside (some addr)

/-- Every cell of the region can be read and leads to cells of the region only. -/
structure Closed : Prop where
  shared : ∀ p, .shared p ∈ X →
    (a.Tagged p .ref ∧ ∃ x, a.fieldAddr p Cell.refReferent = .ok x ∧ Inside a X x) ∨
    (a.Tagged p .closure ∧ ∃ code link, Decode.closureCode a p = .ok code ∧
      a.fieldLink p Cell.closureLink = .ok link ∧ LinkInside a X link)
  frame : ∀ p, .frame p ∈ X → LinkInside a X (some p) ∧ ∃ words, a.slots p = .ok words ∧
    ∀ w ∈ words, w = Cell.uninit ∨ ∃ x, addressOf w = .ok x ∧ Inside a X x

/-- The cell can be decoded. -/
def Healthy (addr : Nat) : Prop := ∃ X, Closed a X ∧ Inside a X addr

end

section

variable {a : Arena} {X : Set Node} {d d' d'' : Decoder} {addr k : Nat} {link : Option Nat}

theorem Arena.Tagged.lt (h : a.Tagged addr t) : addr < a.words.size := by
  obtain ⟨w, hw, -⟩ := h
  rw [Arena.tagWord, Arena.word] at hw
  by_contra hge
  rw [Array.getElem?_eq_none (by omega)] at hw
  cases hw

theorem Arena.lt_of_slots {words : List Int} (h : a.slots addr = .ok words) :
    addr < a.words.size := by
  by_contra hge
  have hnone : a.words[addr]? = none := Array.getElem?_eq_none (by omega)
  simp only [slots, activationEnd, tagWord, word, hnone, bind, Except.bind] at h
  cases h

/-! ## What decoding adds to what is known -/

/-- From `d` to `d'` the decoder forgot nothing, and met only cells of the region. -/
structure Met (X : Set Node) (d d' : Decoder) : Prop where
  kept : d.known ⊆ d'.known
  new : d'.known ⊆ d.known ∪ X

theorem Met.refl (X : Set Node) (d : Decoder) : Met X d d :=
  ⟨subset_rfl, Set.subset_union_left⟩

theorem Met.trans (h : Met X d d') (h' : Met X d' d'') : Met X d d'' := by
  refine ⟨h.kept.trans h'.kept, h'.new.trans ?_⟩
  exact Set.union_subset h.new Set.subset_union_right

/-! How much is left. -/

/-- How many references, closures and activations below an address have not been met. -/
def Decoder.unseen (limit : Nat) (d : Decoder) : Nat :=
  ((Finset.range limit).filter (fun p => d.shared[p]?.isNone)).card +
    ((Finset.range limit).filter (fun p => d.envs[p]?.isNone)).card

private theorem unseen_subset {f : Nat → Option α} {g : Nat → Option β}
    (h : ∀ p, (f p).isSome → (g p).isSome) (limit : Nat) :
    (Finset.range limit).filter (fun p => (g p).isNone) ⊆
      (Finset.range limit).filter (fun p => (f p).isNone) := by
  intro p hp
  rw [Finset.mem_filter] at hp ⊢
  refine ⟨hp.1, ?_⟩
  have hnot : ¬ (f p).isSome := fun hf => by
    have := h p hf
    simp_all
  simpa using hnot

private theorem unseen_card_lt {f : Nat → Option α} {g : Nat → Option β}
    (h : ∀ p, (f p).isSome → (g p).isSome) (hp : p < limit) (hf : f p = none) (hg : (g p).isSome) :
    ((Finset.range limit).filter (fun p => (g p).isNone)).card <
      ((Finset.range limit).filter (fun p => (f p).isNone)).card := by
  refine Finset.card_lt_card ((Finset.ssubset_iff_of_subset (unseen_subset h limit)).mpr ?_)
  refine ⟨p, Finset.mem_filter.mpr ⟨Finset.mem_range.mpr hp, by simp [hf]⟩, ?_⟩
  rw [Finset.mem_filter]
  rintro ⟨-, hnone⟩
  simp_all

/-- The more is known, the less is left. -/
theorem Met.unseen_le (h : Met X d d') (limit : Nat) : d'.unseen limit ≤ d.unseen limit :=
  Nat.add_le_add
    (Finset.card_le_card
      (unseen_subset (fun _ hp => Decoder.shared_mem_known.mp (h.kept hp)) limit))
    (Finset.card_le_card (unseen_subset (fun _ hp => Decoder.frame_mem_known.mp (h.kept hp)) limit))

variable {p : Nat}

theorem Met.unseen_lt_of_shared (h : Met X d d') (hp : p < limit) (hnone : d.shared[p]? = none)
    (hsome : .shared p ∈ d'.known) : d'.unseen limit < d.unseen limit :=
  Nat.add_lt_add_of_lt_of_le
    (unseen_card_lt (fun _ hp => Decoder.shared_mem_known.mp (h.kept hp)) hp hnone hsome)
    (Finset.card_le_card (unseen_subset (fun _ hp => Decoder.frame_mem_known.mp (h.kept hp)) limit))

theorem Met.unseen_lt_of_frame (h : Met X d d') (hp : p < limit) (hnone : d.envs[p]? = none)
    (hsome : .frame p ∈ d'.known) : d'.unseen limit < d.unseen limit :=
  Nat.add_lt_add_of_le_of_lt
    (Finset.card_le_card
      (unseen_subset (fun _ hp => Decoder.shared_mem_known.mp (h.kept hp)) limit))
    (unseen_card_lt (fun _ hp => Decoder.frame_mem_known.mp (h.kept hp)) hp hnone hsome)

/-- What happens in the store does not matter. -/
theorem Met.of_store (X : Set Node) (d : Decoder) (s : Store Address Site) :
    Met X d { d with store := s } :=
  ⟨subset_rfl, Set.subset_union_left⟩

/-- Remember the value of a cell, with the store in which it was made. -/
def Decoder.know (d : Decoder) (store : Store Address Site) (addr : Nat) (v : CellValue) :
    Decoder :=
  ⟨store, d.shared.insert addr v, d.envs⟩

theorem Decoder.shared_know (d : Decoder) (store : Store Address Site) (addr : Nat) (v : CellValue)
    (p : Nat) : (d.know store addr v).shared[p]? = if addr = p then some v else d.shared[p]? := by
  simp [Decoder.know, Std.HashMap.getElem?_insert]

theorem Decoder.shared_know_of_some (store : Store Address Site) (v : CellValue)
    (hnone : d.shared[addr]? = none) (p : Nat) (x : CellValue) (hp : d.shared[p]? = some x) :
    (d.know store addr v).shared[p]? = some x := by
  rw [Decoder.shared_know, if_neg, hp]
  rintro rfl
  rw [hnone] at hp
  cases hp

theorem Decoder.known_know (d : Decoder) (s : Store Address Site) (p : Nat) (v : CellValue) :
    (d.know s p v).known = insert (.shared p) d.known := by
  ext x
  rw [Set.mem_insert_iff]
  cases x with
  | shared q =>
    rw [shared_mem_known, shared_mem_known, shared_know, Node.shared.injEq, eq_comm]
    by_cases hq : q = p
    · simp [hq]
    · simp [hq, Ne.symm hq]
  | frame q => simp [frame_mem_known, know]

theorem Decoder.known_insert_env (d : Decoder) (s : Store Address Site) (p : Nat) (env : Env) :
    known ⟨s, d.shared, d.envs.insert p env⟩ = insert (.frame p) d.known := by
  ext x
  rw [Set.mem_insert_iff]
  cases x with
  | shared q => simp [shared_mem_known]
  | frame q =>
    rw [frame_mem_known, frame_mem_known, Std.HashMap.getElem?_insert, Node.frame.injEq]
    by_cases hq : q = p
    · simp [hq]
    · simp [hq, Ne.symm hq]

theorem Met.know (hp : .shared p ∈ X) (d : Decoder) (s : Store Address Site) (v : CellValue) :
    Met X d (d.know s p v) := by
  refine ⟨?_, ?_⟩ <;> rw [Decoder.known_know]
  · exact Set.subset_insert _ _
  · exact Set.insert_subset (.inr hp) Set.subset_union_left

theorem Met.insert_env (hp : .frame p ∈ X) (d : Decoder) (s : Store Address Site) (env : Env) :
    Met X d ⟨s, d.shared, d.envs.insert p env⟩ := by
  refine ⟨?_, ?_⟩ <;> rw [Decoder.known_insert_env]
  · exact Set.subset_insert _ _
  · exact Set.insert_subset (.inr hp) Set.subset_union_left

/-! ## Decoding in a closed region -/

/-- What decoding a cell that is not known does, by the first word of the cell. -/
def Decode.byWord (a : Arena) (n addr : Nat) (w : Int) : Decode CellValue :=
  match Tag.ofWord? w with
  | some .int => do return .int (← ofExcept (a.field addr Cell.intValue))
  | some (.bool b) => return .bool b
  | some .null => return .null
  | some .unit => return .unit
  | some (.prim p) => return .prim p
  | some .pair => do
    let tail ← value a n (← ofExcept (a.fieldAddr addr Cell.pairTail))
    let head ← value a n (← ofExcept (a.fieldAddr addr Cell.pairHead))
    make (fun s => s.newPair (.ready head) (.ready tail))
  | some .ref => reference a n addr
  | some .closure => closure a n addr
  | some .activation | none => throw (.corruptCell addr w)

theorem Decode.value_eq_byWord (a : Arena) (n addr : Nat) :
    value a (n + 1) addr = get >>= fun d => match d.shared[addr]? with
      | some v => pure v
      | none => ofExcept (a.tagWord addr) >>= byWord a n addr := by
  rw [value]
  rfl

/-- Cells of the region can be decoded when no more than `k` cells have not been met. -/
structure Decodable (a : Arena) (X : Set Node) (k : Nat) : Prop where
  value : ∀ addr d, Inside a X addr → d.unseen a.words.size ≤ k →
    Yields (fun n => Decode.value a n addr) d (fun _ d' => Met X d d')
  frame : ∀ link d, LinkInside a X link → d.unseen a.words.size ≤ k →
    Yields (fun n => Decode.frame a n link) d (fun _ d' => Met X d d')

/-- The slots of a frame can be filled if their words lead to what can be decoded. -/
theorem Decodable.fill (h : Decodable a X k) {bs : List Binding} {ws : List Int}
    (hws : ∀ w ∈ ws, w = Cell.uninit ∨ ∃ x, addressOf w = .ok x ∧ Inside a X x)
    (hk : d.unseen a.words.size ≤ k) :
    Yields (fun n => Decode.fill a n bs ws) d (fun _ d' => Met X d d') := by
  induction ws generalizing bs d with
  | nil =>
    refine .succ (.of_outcome ⟨⟩ d (fun n => ?_) (.refl X d))
    cases bs <;> rfl
  | cons w ws ih =>
    obtain _ | ⟨b, bs⟩ := bs
    · exact .succ (.of_outcome ⟨⟩ d (fun n => rfl) (.refl X d))
    · have hrest : ∀ w ∈ ws, w = Cell.uninit ∨ ∃ x, addressOf w = .ok x ∧ Inside a X x :=
        fun w hw => hws w (.tail _ hw)
      refine .succ ?_
      simp only [Decode.fill]
      by_cases hempty : w = Cell.uninit
      · simp only [ne_eq, hempty, not_true_eq_false, if_false]
        exact ih hrest hk
      · obtain ⟨x, hx, hinside⟩ := (hws w (.head _)).resolve_left hempty
        simp only [ne_eq, hempty, not_false_eq_true, if_true]
        refine .step x d (by rw [hx]; rfl) (.bind (h.value x d hinside hk) ?_)
        intro v d1 hmet
        refine .step ⟨⟩ { d1 with store := d1.store.setSlot b.slot (.ready v) } rfl ?_
        have hmet2 := hmet.trans (.of_store X d1 (d1.store.setSlot b.slot (.ready v)))
        refine (ih hrest ((hmet2.unseen_le _).trans hk)).mono ?_
        exact fun _ _ hmet3 => hmet2.trans hmet3

/-- A reference is known before what it refers to, so less is left for that. -/
theorem Decodable.reference (hfewer : ∀ k' < k, Decodable a X k') (hp : .shared addr ∈ X)
    (htag : a.Tagged addr .ref) (hx : a.fieldAddr addr Cell.refReferent = .ok x)
    (hinside : Inside a X x) (hk : d.unseen a.words.size ≤ k) (hnone : d.shared[addr]? = none) :
    Yields (fun n => Decode.reference a n addr) d (fun _ d' => Met X d d') := by
  refine .succ ?_
  simp only [Decode.reference]
  refine .step d.store.cells.size { d with store := (d.store.newRef .unit).2 } rfl ?_
  refine .step ⟨⟩ (d.know (d.store.newRef .unit).2 addr (.ref d.store.cells.size)) rfl ?_
  refine .step x _ (by rw [hx]; rfl) ?_
  have hmet := Met.know hp d (d.store.newRef .unit).2 (.ref d.store.cells.size)
  have hless := hmet.unseen_lt_of_shared htag.lt hnone
    (by rw [Decoder.known_know]; exact Set.mem_insert _ _)
  refine .bind ((hfewer _ (hless.trans_le hk)).value x _ hinside le_rfl) ?_
  intro v d1 hmet1
  refine .step ⟨⟩ { d1 with store := d1.store.setCell d.store.cells.size v } rfl ?_
  exact .of_outcome _ _ (fun n => rfl) ((hmet.trans hmet1).trans (.of_store X d1 _))

/-- An activation is known before the values of its slots. -/
theorem Decodable.activation (hX : Closed a X) (hfewer : ∀ k' < k, Decodable a X k')
    (hlinked : LinkInside a X link) (hk : d.unseen a.words.size ≤ k) :
    Yields (fun n => Decode.frame a n link) d (fun _ d' => Met X d d') := by
  induction hlinked generalizing d with
  | none => exact .succ (.of_outcome [] d (fun n => rfl) (.refl X d))
  | @some p link hp hlink houter ih =>
    obtain ⟨words, hwords, hslots⟩ := (hX.frame p hp).2
    refine .succ ?_
    simp only [Decode.frame]
    refine .step d d rfl ?_
    cases hknown : d.envs[p]? with
    | some env => exact .of_outcome env d (fun n => rfl) (.refl X d)
    | none =>
      dsimp only
      refine .step link d (by rw [hlink]; rfl) (.bind (ih hk) ?_)
      intro outer d1 hmet1
      refine .step words d1 (by rw [hwords]; rfl) ?_
      generalize Decode.slotNames a p words.length = names
      refine .step (d1.store.newFrame names).1 { d1 with store := (d1.store.newFrame names).2 }
        rfl ?_
      refine .step ⟨⟩ ⟨(d1.store.newFrame names).2, d1.shared,
        d1.envs.insert p ((d1.store.newFrame names).1 :: outer)⟩ rfl ?_
      have hmet := hmet1.trans (.insert_env hp d1 (d1.store.newFrame names).2
        ((d1.store.newFrame names).1 :: outer))
      have hless := hmet.unseen_lt_of_frame (Arena.lt_of_slots hwords) hknown
        (by rw [Decoder.known_insert_env]; exact Set.mem_insert _ _)
      refine .bind ((hfewer _ (hless.trans_le hk)).fill hslots le_rfl) ?_
      intro _ d2 hmet2
      exact .of_outcome _ d2 (fun n => rfl) (hmet.trans hmet2)

theorem Decodable.closure (hX : Closed a X) (hfewer : ∀ k' < k, Decodable a X k')
    (hp : .shared addr ∈ X) {code : Function × List Ident}
    (hcode : Decode.closureCode a addr = .ok code)
    (hlink : a.fieldLink addr Cell.closureLink = .ok link) (hlinked : LinkInside a X link)
    (hk : d.unseen a.words.size ≤ k) :
    Yields (fun n => Decode.closure a n addr) d (fun _ d' => Met X d d') := by
  refine .succ ?_
  simp only [Decode.closure]
  refine .step code d (by rw [hcode]; rfl) (.step link d (by rw [hlink]; rfl) ?_)
  refine .bind (Decodable.activation hX hfewer hlinked hk) ?_
  intro env d1 hmet
  refine .step d1 d1 rfl ?_
  cases d1.shared[addr]? with
  | some v => exact .of_outcome v d1 (fun n => rfl) hmet
  | none => exact .of_outcome _ _ (fun n => rfl) (hmet.trans (.know hp d1 _ _))

/-- A cell is known, or else it is decoded by its tag. -/
theorem Decode.yields_value (htag : a.Tagged addr t)
    (h : ∀ w, Tag.ofWord? w = some t → d.shared[addr]? = none →
      Yields (fun n => byWord a n addr w) d (fun _ d' => Met X d d')) :
    Yields (fun n => value a n addr) d (fun _ d' => Met X d d') := by
  obtain ⟨w, hw, ht⟩ := htag
  refine .succ ?_
  simp only [value_eq_byWord]
  refine .step d d rfl ?_
  cases hknown : d.shared[addr]? with
  | some v => exact .of_outcome v d (fun n => rfl) (.refl X d)
  | none => exact .step w d (by rw [hw]; rfl) (h w ht hknown)

/-- Cells of a closed region can be decoded. The induction is on how many cells have not been met,
and among equal numbers along pairs and links. -/
theorem Closed.decodable (hX : Closed a X) (k : Nat) : Decodable a X k := by
  induction k using Nat.strong_induction_on with
  | _ k hfewer =>
    refine ⟨fun addr d hinside hk => ?_,
      fun link d hlinked hk => Decodable.activation hX hfewer hlinked hk⟩
    induction hinside generalizing d with
    | @shared addr hp =>
      rcases hX.shared addr hp with ⟨htag, x, hx, hinside⟩ |
        ⟨htag, code, link, hcode, hlink, hlinked⟩
      · refine Decode.yields_value htag (fun w ht hnone => ?_)
        simp only [Decode.byWord, ht]
        exact Decodable.reference hfewer hp htag hx hinside hk hnone
      · refine Decode.yields_value htag (fun w ht _ => ?_)
        simp only [Decode.byWord, ht]
        exact Decodable.closure hX hfewer hp hcode hlink hlinked hk
    | @pair addr x y htag hx hy hhead htail ihhead ihtail =>
      refine Decode.yields_value htag (fun w ht _ => ?_)
      simp only [Decode.byWord, ht]
      refine .step y d (by rw [hy]; rfl) (.bind (ihtail d hk) ?_)
      intro tail d1 hmet1
      refine .step x d1 (by rw [hx]; rfl) (.bind (ihhead d1 ((hmet1.unseen_le _).trans hk)) ?_)
      intro head d2 hmet2
      exact .of_outcome _ _ (fun n => rfl) ((hmet1.trans hmet2).trans (.of_store X d2 _))
    | @int addr m htag hm =>
      refine Decode.yields_value htag (fun w ht _ => ?_)
      simp only [Decode.byWord, ht]
      exact .step m d (by rw [hm]; rfl) (.of_outcome _ d (fun n => rfl) (.refl X d))
    | bool htag | null htag | unit htag | prim htag =>
      refine Decode.yields_value htag (fun w ht _ => ?_)
      simp only [Decode.byWord, ht]
      exact .of_outcome _ d (fun n => rfl) (.refl X d)

/-- A healthy cell is decoded from every state. -/
theorem Healthy.yields (h : Healthy a addr) (d : Decoder) :
    Yields (fun n => Decode.value a n addr) d (fun _ _ => True) := by
  obtain ⟨X, hX, hinside⟩ := h
  exact ((hX.decodable _).value addr d hinside le_rfl).mono (fun _ _ _ => trivial)

/-- Whatever number bounds decoding, an outcome is the one that it ends in. -/
theorem Decode.value_eq_of_ends {o r : Except ArenaError CellValue × Decoder}
    (ho : outcome (value a n addr) d = some o) (hr : Ends (fun n => outcome (value a n addr) d) r) :
    o = r := by
  obtain ⟨N, hN⟩ := hr
  have hlarge := (below a (Nat.le_max_left n N)).1 addr d o ho
  exact Option.some.inj (hlarge.symm.trans (hN (max n N) (Nat.le_max_right n N)))

/-- Decoding a healthy cell never fails. -/
theorem Healthy.isOk (h : Healthy a addr) {o : Except ArenaError CellValue}
    (ho : outcome (Decode.value a n addr) d = some (o, d')) : ∃ v, o = .ok v := by
  obtain ⟨v, d1, hends, -⟩ := h.yields d
  cases Decode.value_eq_of_ends ho hends
  exact ⟨v, rfl⟩

/-! ## The parts of a healthy cell -/

theorem Healthy.pair (h : Healthy a addr) (htag : a.Tagged addr .pair) {y : Nat}
    (hx : a.fieldAddr addr Cell.pairHead = .ok x) (hy : a.fieldAddr addr Cell.pairTail = .ok y) :
    Healthy a x ∧ Healthy a y := by
  obtain ⟨X, hX, hinside⟩ := h
  cases hinside with
  | pair _ hx' hy' head tail =>
    rw [hx] at hx'
    rw [hy] at hy'
    cases hx'
    cases hy'
    exact ⟨⟨X, hX, head⟩, X, hX, tail⟩
  | shared mem =>
    rcases hX.shared addr mem with ⟨htag', -⟩ | ⟨htag', -⟩ <;> cases htag.unique htag'
  | int tag | bool tag | null tag | unit tag | prim tag => cases htag.unique tag

theorem Healthy.referent (h : Healthy a addr) (htag : a.Tagged addr .ref) :
    ∃ x, a.fieldAddr addr Cell.refReferent = .ok x ∧ Healthy a x := by
  obtain ⟨X, hX, hinside⟩ := h
  cases hinside with
  | shared mem =>
    rcases hX.shared addr mem with ⟨-, x, hx, hinside⟩ | ⟨htag', -⟩
    · exact ⟨x, hx, X, hX, hinside⟩
    · cases htag.unique htag'
  | int tag | bool tag | null tag | unit tag | prim tag | pair tag => cases htag.unique tag

end

end Mapling
