import Mapling.Proofs.Continuation.MatchingOutcomes
import Mapling.Proofs.Eval.Freely

/-! # Stores that mirror each other

Two programs that do the same with different functions leave different numbers in their stores:
the one may have made closures and filled slots that the other has not. What the stores have in
common is kept as a list of links, each of which ties a slot, a cell or a closure on the left to
one on the right. Links are only ever added, and no number occurs in two of a kind, so that two
pairs, references or closures are the same on the left exactly if they are on the right.

Which functions may stand for each other is left open (`Scheme`): it is a relation between their
parameters and bodies. A primitive on the left may be a closure on the right. -/

namespace Mapling

variable {a b n : Nat} {xs : List String}

abbrev NamedValue := Value Ident Unit

abbrev NamedStore := Store Ident Unit

/-- Something on the left and its image on the right. -/
inductive Link where
  | slot (i j : Nat)
  | cell (i j : Nat)
  | closure (i j : Nat)
  /-- A closure on the right that is a primitive on the left. -/
  | prim (j : Nat)

inductive Thing where
  | slot (i : Nat)
  | cell (i : Nat)
  | closure (i : Nat)

namespace Link

def left? : Link → Option Thing
  | .slot i _ => some (.slot i)
  | .cell i _ => some (.cell i)
  | .closure i _ => some (.closure i)
  | .prim _ => none

def right : Link → Thing
  | .slot _ j => .slot j
  | .cell _ j => .cell j
  | .closure _ j | .prim j => .closure j

end Link

def OneToOne (w : List Link) : Prop :=
  ∀ l ∈ w, ∀ l' ∈ w, (∃ a, l.left? = some a ∧ l'.left? = some a) ∨ l.right = l'.right → l = l'

namespace OneToOne

variable {w : List Link} {i j i' j' : Nat}

/-- A link between things that are not linked. -/
theorem cons {l : Link} (h : OneToOne w)
    (hleft : ∀ l' ∈ w, ∀ a, l.left? = some a → l'.left? ≠ some a)
    (hright : ∀ l' ∈ w, l'.right ≠ l.right) : OneToOne (l :: w) := by
  intro l1 h1 l2 h2 hends
  rcases List.mem_cons.mp h1 with rfl | hold1 <;> rcases List.mem_cons.mp h2 with heq2 | hold2
  · exact heq2.symm
  · rcases hends with ⟨a, ha, ha'⟩ | heq
    · exact absurd ha' (hleft l2 hold2 a ha)
    · exact absurd heq.symm (hright l2 hold2)
  · subst heq2
    rcases hends with ⟨a, ha, ha'⟩ | heq
    · exact absurd ha (hleft l1 hold1 a ha')
    · exact absurd heq (hright l1 hold1)
  · exact h l1 hold1 l2 hold2 hends

theorem slot (h : OneToOne w) (h1 : .slot i j ∈ w) (h2 : .slot i' j' ∈ w) : i = i' ↔ j = j' := by
  constructor
  · rintro rfl
    cases h _ h1 _ h2 (.inl ⟨.slot i, rfl, rfl⟩)
    rfl
  · rintro rfl
    cases h _ h1 _ h2 (.inr rfl)
    rfl

theorem cell (h : OneToOne w) (h1 : .cell i j ∈ w) (h2 : .cell i' j' ∈ w) : i = i' ↔ j = j' := by
  constructor
  · rintro rfl
    cases h _ h1 _ h2 (.inl ⟨.cell i, rfl, rfl⟩)
    rfl
  · rintro rfl
    cases h _ h1 _ h2 (.inr rfl)
    rfl

theorem closure (h : OneToOne w) (h1 : .closure i j ∈ w) (h2 : .closure i' j' ∈ w) :
    i = i' ↔ j = j' := by
  constructor
  · rintro rfl
    cases h _ h1 _ h2 (.inl ⟨.closure i, rfl, rfl⟩)
    rfl
  · rintro rfl
    cases h _ h1 _ h2 (.inr rfl)
    rfl

/-- A closure that is one on both sides is not a primitive. -/
theorem prim (h : OneToOne w) (h1 : .closure i j ∈ w) (h2 : .prim j' ∈ w) : j ≠ j' := by
  rintro rfl
  cases h _ h1 _ h2 (.inr rfl)

end OneToOne

/-- Two stores and the links between them. -/
structure Stage where
  links : List Link
  left : NamedStore
  right : NamedStore

/-- A stage that is reached from another one by evaluation. Slots that there were are as they
were, and no links are added to them; nor are links added to the closures that there were on the
left. -/
structure Stage.Later (S S' : Stage) : Prop where
  grows : S.links ⊆ S'.links
  left : S.left.Kept S'.left
  right : S.right.Kept S'.right
  slots : ∀ {i j}, .slot i j ∈ S'.links →
    .slot i j ∈ S.links ∨ S.left.slots.size ≤ i ∧ S.right.slots.size ≤ j
  made : S.left.closures ≤ S'.left.closures
  closures : ∀ {i j}, .closure i j ∈ S'.links → .closure i j ∈ S.links ∨ S.left.closures ≤ i

namespace Stage.Later

variable {S S' S'' : Stage}

theorem refl (S : Stage) : S.Later S :=
  ⟨fun _ h => h, .refl _, .refl _, .inl, le_rfl, .inl⟩

theorem trans (h : S.Later S') (h' : S'.Later S'') : S.Later S'' := by
  refine ⟨fun l hl => h'.grows (h.grows hl), h.left.trans h'.left, h.right.trans h'.right,
    fun hl => ?_, Nat.le_trans h.made h'.made, fun hl => ?_⟩
  · rcases h'.slots hl with hold | ⟨hi, hj⟩
    · exact h.slots hold
    · exact .inr ⟨Nat.le_trans h.left.size hi, Nat.le_trans h.right.size hj⟩
  · rcases h'.closures hl with hold | hi
    · exact h.closures hold
    · exact .inr (Nat.le_trans h.made hi)

end Stage.Later

/-- There is more on the right, and no links are added to slots that there were. -/
structure Stage.Grown (S S' : Stage) : Prop where
  links : S.links ⊆ S'.links
  size : S.right.slots.size ≤ S'.right.slots.size
  slots : ∀ {i j}, .slot i j ∈ S'.links → .slot i j ∈ S.links ∨ S.right.slots.size ≤ j

theorem Stage.Later.grown {S S' : Stage} (h : S.Later S') : S.Grown S' :=
  ⟨h.grows, h.right.size, fun hl => (h.slots hl).imp id And.right⟩

theorem Stage.Grown.trans {S S' S'' : Stage} (h : S.Grown S') (h' : S'.Grown S'') :
    S.Grown S'' := by
  refine ⟨fun l hl => h'.links (h.links hl), Nat.le_trans h.size h'.size, fun hl => ?_⟩
  rcases h'.slots hl with hold | hj
  · exact h.slots hold
  · exact .inr (Nat.le_trans h.size hj)

/-! ## Values -/

/-- Which functions stand for each other. -/
structure Scheme where
  /-- The names that mean the same on both sides. -/
  names : String → Prop
  /-- How many more parameters a function has on the right. -/
  surplus : Nat
  /-- Parameters and body on the left, parameters and body on the right. -/
  code : List Ident → NamedExpr → List Ident → NamedExpr → Prop
  /-- A primitive on the left, parameters and body on the right. -/
  prim : Prim → List Ident → NamedExpr → Prop
  /-- The error that is raised when two primitives are compared on the left. -/
  marker : Option EvalError
  code_arity : ∀ {ps b ps' b'}, code ps b ps' b' → ps'.length = ps.length + surplus
  prim_arity : ∀ {p ps' b'}, prim p ps' b' → ps'.length = p.parameters + surplus
  marked : ∀ {p ps' b'}, prim p ps' b' → marker.isSome

namespace Scheme

variable (σ : Scheme)

/-- The names mean linked slots, or they mean nothing on both sides. -/
def Envs (w : List Link) (env env' : Env) : Prop :=
  ∀ x, σ.names x → (env.find? x = none ∧ env'.find? x = none) ∨
    ∃ b b', env.find? x = some b ∧ env'.find? x = some b' ∧ .slot b.slot b'.slot ∈ w

/-- Values that are the same but for links. -/
inductive Same (w : List Link) : NamedValue → NamedValue → Prop
  | int (n : Int) : Same w (.int n) (.int n)
  | bool (b : Bool) : Same w (.bool b) (.bool b)
  | null : Same w .null .null
  | unit : Same w .unit .unit
  | pair {h t h' t' : Nat} (head : .slot h h' ∈ w) (tail : .slot t t' ∈ w) :
      Same w (.pair h t) (.pair h' t')
  | ref {i i' : Nat} (cell : .cell i i' ∈ w) : Same w (.ref i) (.ref i')
  | closure {i i' : Nat} {ps ps' : List Ident} {b b' : NamedExpr} {env env' : Env}
      (id : .closure i i' ∈ w) (code : σ.code ps b ps' b') (envs : σ.Envs w env env') :
      Same w (.closure i ⟨ps, (), b, env⟩) (.closure i' ⟨ps', (), b', env'⟩)
  | prim {i' : Nat} {p : Prim} {ps' : List Ident} {b' : NamedExpr} {env' : Env}
      (id : .prim i' ∈ w) (code : σ.prim p ps' b') :
      Same w (.prim p) (.closure i' ⟨ps', (), b', env'⟩)

inductive SameSlot (w : List Link) : Slot Ident Unit → Slot Ident Unit → Prop
  | uninit : SameSlot w .uninit .uninit
  | ready {v v' : NamedValue} (same : σ.Same w v v') : SameSlot w (.ready v) (.ready v')

variable {σ} {w w' : List Link}
variable {f f' : Frame} {v' v : NamedValue} {env' env : Env}

theorem Envs.mono (h : σ.Envs w env env') (hw : w ⊆ w') : σ.Envs w' env env' := by
  intro x hx
  rcases h x hx with hnone | ⟨b, b', hb, hb', hlink⟩
  · exact .inl hnone
  · exact .inr ⟨b, b', hb, hb', hw hlink⟩

theorem Same.mono (h : σ.Same w v v') (hw : w ⊆ w') : σ.Same w' v v' := by
  cases h with
  | int n => exact .int n
  | bool b => exact .bool b
  | null => exact .null
  | unit => exact .unit
  | pair head tail => exact .pair (hw head) (hw tail)
  | ref cell => exact .ref (hw cell)
  | closure id code envs => exact .closure (hw id) code (envs.mono hw)
  | prim id code => exact .prim (hw id) code

theorem SameSlot.mono {x x' : Slot Ident Unit} (h : σ.SameSlot w x x') (hw : w ⊆ w') :
    σ.SameSlot w' x x' := by
  cases h with
  | uninit => exact .uninit
  | ready same => exact .ready (same.mono hw)

theorem Same.isList_eq (h : σ.Same w v v') : v.isList = v'.isList := by
  cases h <;> rfl

theorem Same.isFunction_eq (h : σ.Same w v v') : v.isFunction = v'.isFunction := by
  cases h <;> rfl

/-! ## Environments -/

def Linked (w : List Link) (b b' : Binding) : Prop := b.name = b'.name ∧ .slot b.slot b'.slot ∈ w

theorem find?_linked (h : List.Forall₂ (Linked w) f f') (x : String) :
    (f.find? (fun b => b.name == x) = none ∧ f'.find? (fun b => b.name == x) = none) ∨
      ∃ b b', f.find? (fun b => b.name == x) = some b ∧ f'.find? (fun b => b.name == x) = some b' ∧
        .slot b.slot b'.slot ∈ w := by
  induction h with
  | nil => exact .inl ⟨rfl, rfl⟩
  | @cons b b' f f' hb _ ih =>
    obtain ⟨hname, hlink⟩ := hb
    by_cases hx : b.name = x
    · refine .inr ⟨b, b', ?_, ?_, hlink⟩
      · rw [List.find?_cons_of_pos (by simpa using hx)]
      · rw [List.find?_cons_of_pos (by simpa [← hname] using hx)]
    · rw [List.find?_cons_of_neg (by simpa using hx),
        List.find?_cons_of_neg (by simpa [← hname] using hx)]
      exact ih

/-- A frame whose names are not common to both sides is passed over. -/
theorem find?_cons_of_foreign {x : String} (hf : ∀ b ∈ f, b.name ≠ x) (env : Env) :
    Env.find? (f :: env) x = env.find? x := by
  have hnone : f.reverse.find? (fun b => b.name == x) = none := by
    rw [List.find?_eq_none]
    intro b hb
    simpa using hf b (List.mem_reverse.mp hb)
  rw [Env.find?, hnone]

/-- Going into frames that declare the same names; the one on the right may declare others, which
are not common to both sides, after them. -/
theorem Envs.cons {more : Frame} (hf : List.Forall₂ (Linked w) f f')
    (hmore : ∀ b ∈ more, ¬ σ.names b.name) (henv : σ.Envs w env env') :
    σ.Envs w (f :: env) ((f' ++ more) :: env') := by
  intro x hx
  have hnone : more.reverse.find? (fun b => b.name == x) = none := by
    rw [List.find?_eq_none]
    intro b hb heq
    have hname : b.name = x := by simpa using heq
    exact hmore b (List.mem_reverse.mp hb) (hname ▸ hx)
  rw [Env.find?, Env.find?, List.reverse_append, List.find?_append, hnone, Option.none_or]
  rcases find?_linked (List.forall₂_reverse_iff.mpr hf) x with ⟨h1, h2⟩ | ⟨b, b', h1, h2, hlink⟩
  · rw [h1, h2]
    exact henv x hx
  · rw [h1, h2]
    exact .inr ⟨b, b', rfl, rfl, hlink⟩

/-- Going into frames that declare the same names. -/
theorem Envs.cons_linked (hf : List.Forall₂ (Linked w) f f') (henv : σ.Envs w env env') :
    σ.Envs w (f :: env) (f' :: env') := by
  have hcons := cons hf (fun b hb => absurd hb List.not_mem_nil) henv
  rwa [List.append_nil] at hcons

/-! ## Stores -/

variable (σ)

/-- What a link says of the stores: the two things are there and are the same. -/
def Holds (S : Stage) : Link → Prop
  | .slot i j => i < S.left.slots.size ∧ j < S.right.slots.size ∧
      σ.SameSlot S.links (S.left.slot i) (S.right.slot j)
  | .cell i j => i < S.left.cells.size ∧ j < S.right.cells.size ∧
      σ.Same S.links (S.left.cell i) (S.right.cell j)
  | .closure i j => i < S.left.closures ∧ j < S.right.closures
  | .prim j => j < S.right.closures

/-- The links of a stage hold. -/
structure Related (S : Stage) : Prop where
  holds : ∀ l ∈ S.links, σ.Holds S l
  oneToOne : OneToOne S.links

variable {σ} {S : Stage}

theorem Holds.mono {l : Link} (h : σ.Holds S l) (hw : S.links ⊆ w) :
    σ.Holds { S with links := w } l := by
  cases l with
  | slot | cell => exact ⟨h.1, h.2.1, h.2.2.mono hw⟩
  | closure | prim => exact h

namespace Related

/-- The left store changes where nothing is linked. -/
theorem setLeft (h : σ.Related S) {s : NamedStore}
    (hslots : ∀ i j, .slot i j ∈ S.links → i < s.slots.size ∧ s.slot i = S.left.slot i)
    (hcells : ∀ i j, .cell i j ∈ S.links → i < s.cells.size ∧ s.cell i = S.left.cell i)
    (hclosures : S.left.closures ≤ s.closures) : σ.Related { S with left := s } := by
  refine ⟨fun l hl => ?_, h.oneToOne⟩
  have hold := h.holds l hl
  cases l with
  | slot i j =>
    obtain ⟨hi, heq⟩ := hslots i j hl
    exact ⟨hi, hold.2.1, by rw [heq]; exact hold.2.2⟩
  | cell i j =>
    obtain ⟨hi, heq⟩ := hcells i j hl
    exact ⟨hi, hold.2.1, by rw [heq]; exact hold.2.2⟩
  | closure i j => exact ⟨Nat.lt_of_lt_of_le hold.1 hclosures, hold.2⟩
  | prim j => exact hold

/-- The right store changes where nothing is linked. -/
theorem setRight (h : σ.Related S) {t : NamedStore}
    (hslots : ∀ i j, .slot i j ∈ S.links → j < t.slots.size ∧ t.slot j = S.right.slot j)
    (hcells : ∀ i j, .cell i j ∈ S.links → j < t.cells.size ∧ t.cell j = S.right.cell j)
    (hclosures : S.right.closures ≤ t.closures) : σ.Related { S with right := t } := by
  refine ⟨fun l hl => ?_, h.oneToOne⟩
  have hold := h.holds l hl
  cases l with
  | slot i j =>
    obtain ⟨hj, heq⟩ := hslots i j hl
    exact ⟨hold.1, hj, by rw [heq]; exact hold.2.2⟩
  | cell i j =>
    obtain ⟨hj, heq⟩ := hcells i j hl
    exact ⟨hold.1, hj, by rw [heq]; exact hold.2.2⟩
  | closure i j => exact ⟨hold.1, Nat.lt_of_lt_of_le hold.2 hclosures⟩
  | prim j => exact Nat.lt_of_lt_of_le hold hclosures

/-- Another link. -/
theorem link (h : σ.Related S) {l : Link} (hl : σ.Holds S l)
    (hleft : ∀ l' ∈ S.links, ∀ a, l.left? = some a → l'.left? ≠ some a)
    (hright : ∀ l' ∈ S.links, l'.right ≠ l.right) :
    σ.Related { S with links := l :: S.links } := by
  refine ⟨fun l' hl' => ?_, h.oneToOne.cons hleft hright⟩
  rcases List.mem_cons.mp hl' with rfl | hold
  · exact hl.mono (List.subset_cons_self _ _)
  · exact (h.holds l' hold).mono (List.subset_cons_self _ _)

variable {i j : Nat}

variable (h : σ.Related S)
include h

/-- Link two slots that are not linked. -/
theorem linkSlot (hi : i < S.left.slots.size) (hj : j < S.right.slots.size)
    (hleft : ∀ j', .slot i j' ∉ S.links) (hright : ∀ i', .slot i' j ∉ S.links)
    (hsame : σ.SameSlot S.links (S.left.slot i) (S.right.slot j)) :
    σ.Related { S with links := .slot i j :: S.links } := by
  refine h.link ⟨hi, hj, hsame⟩ (fun l' hl' a ha hl => ?_) (fun l' hl' hl => ?_)
  · cases ha
    cases l' with
    | slot i' j' =>
      cases hl
      exact hleft _ hl'
    | _ => cases hl
  · cases l' with
    | slot i' j' =>
      cases hl
      exact hright _ hl'
    | _ => cases hl

/-- Link two closures that are not linked. -/
theorem linkClosure (hi : i < S.left.closures) (hj : j < S.right.closures)
    (hleft : ∀ j', .closure i j' ∉ S.links) (hright : ∀ l ∈ S.links, l.right ≠ .closure j) :
    σ.Related { S with links := .closure i j :: S.links } := by
  refine h.link ⟨hi, hj⟩ (fun l' hl' a ha hl => ?_) hright
  cases ha
  cases l' with
  | closure i' j' =>
    cases hl
    exact hleft _ hl'
  | _ => cases hl

/-- The closure that is made next is not linked. -/
theorem right_ne_closures : ∀ l ∈ S.links, l.right ≠ .closure S.right.closures := by
  intro l hl heq
  have hold := h.holds l hl
  cases l with
  | closure i j =>
    cases heq
    exact Nat.lt_irrefl _ hold.2
  | prim j =>
    cases heq
    exact Nat.lt_irrefl _ hold
  | _ => cases heq

theorem slot (hl : .slot i j ∈ S.links) :
    i < S.left.slots.size ∧ j < S.right.slots.size ∧
      σ.SameSlot S.links (S.left.slot i) (S.right.slot j) := h.holds _ hl

theorem cell (hl : .cell i j ∈ S.links) :
    i < S.left.cells.size ∧ j < S.right.cells.size ∧
      σ.Same S.links (S.left.cell i) (S.right.cell j) := h.holds _ hl

/-- Slots beyond the left store are not linked. -/
theorem slot_notMem_left (hi : S.left.slots.size ≤ i) (j : Nat) : .slot i j ∉ S.links := by
  intro hl
  have := (h.slot hl).1
  omega

/-- Slots beyond the right store are not linked. -/
theorem slot_notMem_right (hj : S.right.slots.size ≤ j) (i : Nat) : .slot i j ∉ S.links := by
  intro hl
  have := (h.slot hl).2.1
  omega

/-- The left store keeps its slots, and its cells are as they were. -/
theorem keepLeft {s : NamedStore} (hslots : S.left.Kept s) (hcells : s.cells = S.left.cells)
    (hclosures : S.left.closures ≤ s.closures) : σ.Related { S with left := s } := by
  refine h.setLeft (fun i j hl => ?_) (fun i j hl => ?_) hclosures
  · obtain ⟨hi, -, -⟩ := h.slot hl
    exact ⟨Nat.lt_of_lt_of_le hi hslots.size, hslots.slot i hi⟩
  · obtain ⟨hi, -, -⟩ := h.cell hl
    exact ⟨hcells ▸ hi, by rw [Store.cell, hcells, Store.cell]⟩

/-- The right store keeps its slots, and its cells are as they were. -/
theorem keepRight {t : NamedStore} (hslots : S.right.Kept t) (hcells : t.cells = S.right.cells)
    (hclosures : S.right.closures ≤ t.closures) : σ.Related { S with right := t } := by
  refine h.setRight (fun i j hl => ?_) (fun i j hl => ?_) hclosures
  · obtain ⟨-, hj, -⟩ := h.slot hl
    exact ⟨Nat.lt_of_lt_of_le hj hslots.size, hslots.slot j hj⟩
  · obtain ⟨-, hj, -⟩ := h.cell hl
    exact ⟨hcells ▸ hj, by rw [Store.cell, hcells, Store.cell]⟩

end Related

end Scheme

/-! ## Operations on both stores -/

namespace Stage

variable {σ : Scheme} {S : Stage}

/-- A stage whose left store has kept its slots. -/
theorem later_left {s : NamedStore} (hslots : S.left.Kept s)
    (hclosures : S.left.closures ≤ s.closures) : S.Later { S with left := s } :=
  ⟨fun _ hl => hl, hslots, .refl _, .inl, hclosures, .inl⟩

/-- A stage whose right store has kept its slots. -/
theorem later_right {t : NamedStore} (hslots : S.right.Kept t) : S.Later { S with right := t } :=
  ⟨fun _ hl => hl, .refl _, hslots, .inl, le_rfl, .inl⟩

def newRef (S : Stage) (v v' : NamedValue) : Stage :=
  ⟨.cell S.left.cells.size S.right.cells.size :: S.links, (S.left.newRef v).2,
    (S.right.newRef v').2⟩

theorem later_newRef (S : Stage) (v v' : NamedValue) : S.Later (S.newRef v v') := by
  refine ⟨List.subset_cons_self _ _, .of_slots rfl, .of_slots rfl, fun hl => .inl ?_,
    le_rfl, fun hl => .inl ?_⟩
  · simpa [newRef] using hl
  · simpa [newRef] using hl

variable {v' v : NamedValue}

/-- A new cell on both sides is linked. -/
theorem related_newRef (h : σ.Related S) (hv : σ.Same S.links v v') :
    σ.Related (S.newRef v v') := by
  have hleft : σ.Related { S with left := (S.left.newRef v).2 } := by
    refine h.setLeft (fun i j hl => ⟨(h.slot hl).1, rfl⟩) (fun i j hl => ?_) le_rfl
    have hi := (h.cell hl).1
    refine ⟨by simp only [Store.newRef, Array.size_push]; omega, ?_⟩
    rw [Store.cell_newRef, if_neg (by omega)]
  have hboth : σ.Related ⟨S.links, (S.left.newRef v).2, (S.right.newRef v').2⟩ := by
    refine hleft.setRight (fun i j hl => ⟨(h.slot hl).2.1, rfl⟩) (fun i j hl => ?_)
      le_rfl
    have hj := (h.cell hl).2.1
    refine ⟨by simp only [Store.newRef, Array.size_push]; omega, ?_⟩
    rw [Store.cell_newRef, if_neg (by omega)]
  refine hboth.link ⟨?_, ?_, ?_⟩ (fun l hl a ha heq => ?_) (fun l hl heq => ?_)
  · simp [Store.newRef]
  · simp [Store.newRef]
  · rw [Store.cell_newRef, Store.cell_newRef, if_pos rfl, if_pos rfl]
    exact hv
  · cases ha
    cases l with
    | cell i j =>
      cases heq
      exact Nat.lt_irrefl _ (h.cell hl).1
    | _ => cases heq
  · cases l with
    | cell i j =>
      cases heq
      exact Nat.lt_irrefl _ (h.cell hl).2.1
    | _ => cases heq

/-- Linked cells may be assigned values that correspond. -/
theorem related_setCell (h : σ.Related S) {i j : Nat} (hl : .cell i j ∈ S.links)
    (hv : σ.Same S.links v v') : σ.Related ⟨S.links, S.left.setCell i v, S.right.setCell j v'⟩ := by
  refine ⟨fun l hl' => ?_, h.oneToOne⟩
  have hold := h.holds l hl'
  cases l with
  | cell i' j' =>
    obtain ⟨hi', hj', hsame⟩ := hold
    refine ⟨by simpa [Store.setCell] using hi', by simpa [Store.setCell] using hj', ?_⟩
    dsimp only
    rw [Store.cell_setCell, Store.cell_setCell]
    by_cases heq : i = i'
    · have heq' : j = j' := (h.oneToOne.cell hl hl').mp heq
      rw [if_pos ⟨heq, heq ▸ hi'⟩, if_pos ⟨heq', heq' ▸ hj'⟩]
      exact hv
    · have heq' : ¬ j = j' := fun hj => heq ((h.oneToOne.cell hl hl').mpr hj)
      rw [if_neg (fun hc => heq hc.1), if_neg (fun hc => heq' hc.1)]
      exact hsame
  | slot | closure | prim => exact hold

theorem later_setCell (S : Stage) (i j : Nat) (v v' : NamedValue) :
    S.Later ⟨S.links, S.left.setCell i v, S.right.setCell j v'⟩ :=
  ⟨fun _ hl => hl, .of_slots rfl, .of_slots rfl, .inl, le_rfl, .inl⟩

def newClosure (S : Stage) (c c' : Closure Ident Unit) : Stage :=
  ⟨.closure S.left.closures S.right.closures :: S.links, (S.left.newClosure c).2,
    (S.right.newClosure c').2⟩

theorem later_newClosure (S : Stage) (c c' : Closure Ident Unit) :
    S.Later (S.newClosure c c') := by
  refine ⟨List.subset_cons_self _ _, .of_slots rfl, .of_slots rfl, fun hl => .inl ?_,
    Nat.le_succ _, fun hl => ?_⟩
  · simpa [newClosure] using hl
  · simp only [newClosure, List.mem_cons, Link.closure.injEq] at hl
    rcases hl with ⟨rfl, -⟩ | hold
    · exact .inr le_rfl
    · exact .inl hold

theorem related_newClosure (h : σ.Related S) (c c' : Closure Ident Unit) :
    σ.Related (S.newClosure c c') := by
  have hboth : σ.Related ⟨S.links, (S.left.newClosure c).2, (S.right.newClosure c').2⟩ :=
    (h.keepLeft (s := (S.left.newClosure c).2) (.of_slots rfl) rfl (Nat.le_succ _)).keepRight
      (.of_slots rfl) rfl (Nat.le_succ _)
  refine hboth.linkClosure (Nat.lt_succ_self _) (Nat.lt_succ_self _) (fun j hl => ?_)
    h.right_ne_closures
  exact Nat.lt_irrefl _ (h.holds _ hl).1

/-- A new closure on the right that is a primitive on the left. -/
def newPrim (S : Stage) (c' : Closure Ident Unit) : Stage :=
  ⟨.prim S.right.closures :: S.links, S.left, (S.right.newClosure c').2⟩

theorem later_newPrim (S : Stage) (c' : Closure Ident Unit) : S.Later (S.newPrim c') := by
  refine ⟨List.subset_cons_self _ _, .refl _, .of_slots rfl, fun hl => .inl ?_,
    le_rfl, fun hl => .inl ?_⟩
  · simpa [newPrim] using hl
  · simpa [newPrim] using hl

theorem related_newPrim (h : σ.Related S) (c' : Closure Ident Unit) : σ.Related (S.newPrim c') := by
  have hright : σ.Related { S with right := (S.right.newClosure c').2 } :=
    h.keepRight (.of_slots rfl) rfl (Nat.le_succ _)
  refine hright.link (Nat.lt_succ_self _) (fun l hl a ha => ?_) h.right_ne_closures
  cases ha

/-! ## Rows of slots -/

/-- Links between `n` slots in a row from `a` on the left and from `b` on the right. -/
def rowLinks (a b : Nat) : Nat → List Link
  | 0 => []
  | n + 1 => .slot a b :: rowLinks (a + 1) (b + 1) n

theorem mem_rowLinks {l : Link} : l ∈ rowLinks a b n ↔ ∃ k, k < n ∧ l = .slot (a + k) (b + k) := by
  induction n generalizing a b with
  | zero => simp [rowLinks]
  | succ n ih =>
    rw [rowLinks, List.mem_cons, ih]
    constructor
    · rintro (rfl | ⟨k, hk, rfl⟩)
      · exact ⟨0, by omega, rfl⟩
      · exact ⟨k + 1, by omega, by rw [Nat.add_assoc, Nat.add_comm 1 k, Nat.add_assoc,
          Nat.add_comm 1 k]⟩
    · rintro ⟨k, hk, rfl⟩
      cases k with
      | zero => exact .inl rfl
      | succ k => exact .inr ⟨k, by omega, by rw [Nat.add_assoc, Nat.add_comm 1 k, Nat.add_assoc,
          Nat.add_comm 1 k]⟩

/-- Link rows of slots that are not linked. -/
theorem related_row (h : σ.Related S) (ha : a + n ≤ S.left.slots.size)
    (hb : b + n ≤ S.right.slots.size) (hleft : ∀ k, k < n → ∀ j, .slot (a + k) j ∉ S.links)
    (hright : ∀ k, k < n → ∀ i, .slot i (b + k) ∉ S.links)
    (hsame : ∀ k, k < n → σ.SameSlot S.links (S.left.slot (a + k)) (S.right.slot (b + k))) :
    σ.Related { S with links := rowLinks a b n ++ S.links } := by
  induction n generalizing a b with
  | zero => exact h
  | succ n ih =>
    have hrest := ih (a := a + 1) (b := b + 1) (by omega) (by omega)
      (fun k hk j => by rw [Nat.add_assoc, Nat.add_comm 1 k]; exact hleft (k + 1) (by omega) j)
      (fun k hk i => by rw [Nat.add_assoc, Nat.add_comm 1 k]; exact hright (k + 1) (by omega) i)
      (fun k hk => by
        rw [Nat.add_assoc, Nat.add_comm 1 k, Nat.add_assoc, Nat.add_comm 1 k]
        exact hsame (k + 1) (by omega))
    refine hrest.linkSlot (by dsimp only; omega) (by dsimp only; omega) (fun j hl => ?_)
      (fun i hl => ?_) ?_
    · rcases List.mem_append.mp hl with hrow | hold
      · obtain ⟨k, -, heq⟩ := mem_rowLinks.mp hrow
        simp only [Link.slot.injEq] at heq
        omega
      · exact hleft 0 (by omega) j hold
    · rcases List.mem_append.mp hl with hrow | hold
      · obtain ⟨k, -, heq⟩ := mem_rowLinks.mp hrow
        simp only [Link.slot.injEq] at heq
        omega
      · exact hright 0 (by omega) i hold
    · exact (hsame 0 (by omega)).mono (List.subset_append_right _ _)

def linkRow (S : Stage) (a b n : Nat) : Stage := { S with links := rowLinks a b n ++ S.links }

/-- Slots are linked that were not there at the earlier stage. -/
theorem Later.linkRow {S0 : Stage} (h : S0.Later S) (ha : S0.left.slots.size ≤ a)
    (hb : S0.right.slots.size ≤ b) (n : Nat) : S0.Later (S.linkRow a b n) := by
  refine ⟨fun l hl => List.mem_append_right _ (h.grows hl), h.left, h.right, fun hl => ?_, h.made,
    fun hl => ?_⟩
  · rcases List.mem_append.mp hl with hrow | hold
    · obtain ⟨k, -, heq⟩ := mem_rowLinks.mp hrow
      simp only [Link.slot.injEq] at heq
      exact .inr (by omega)
    · exact h.slots hold
  · rcases List.mem_append.mp hl with hrow | hold
    · obtain ⟨k, -, heq⟩ := mem_rowLinks.mp hrow
      cases heq
    · exact h.closures hold

section

variable {s t : NamedStore}

/-- Slots are added to both stores and linked in order. -/
theorem later_newRow (hs : S.left.Kept s) (ht : S.right.Kept t)
    (hclosures : s.closures = S.left.closures) (n : Nat) :
    S.Later (linkRow ⟨S.links, s, t⟩ S.left.slots.size S.right.slots.size n) :=
  ((later_left hs hclosures.ge).trans (later_right ht)).linkRow le_rfl le_rfl n

theorem related_newRow (h : σ.Related S) (hs : S.left.Kept s) (ht : S.right.Kept t)
    (hcells : s.cells = S.left.cells) (hcells' : t.cells = S.right.cells)
    (hclosures : s.closures = S.left.closures) (hclosures' : t.closures = S.right.closures)
    (hsize : s.slots.size = S.left.slots.size + n) (hsize' : t.slots.size = S.right.slots.size + n)
    (hsame : ∀ k, k < n → σ.SameSlot S.links (s.slot (S.left.slots.size + k))
      (t.slot (S.right.slots.size + k))) :
    σ.Related (linkRow ⟨S.links, s, t⟩ S.left.slots.size S.right.slots.size n) :=
  related_row ((h.keepLeft hs hcells hclosures.ge).keepRight ht hcells' hclosures'.ge)
    hsize.ge hsize'.ge (fun k _ => h.slot_notMem_left (Nat.le_add_right _ k))
    (fun k _ => h.slot_notMem_right (Nat.le_add_right _ k)) hsame

end

def newPair (S : Stage) (v w v' w' : NamedValue) : Stage :=
  ⟨rowLinks S.left.slots.size S.right.slots.size 2 ++ S.links,
    (S.left.newPair (.ready v) (.ready w)).2, (S.right.newPair (.ready v') (.ready w')).2⟩

theorem later_newPair (S : Stage) (v w v' w' : NamedValue) : S.Later (S.newPair v w v' w') :=
  later_newRow (Store.kept_newPair _ _ _) (Store.kept_newPair _ _ _) rfl 2

/-- A new pair on both sides is linked, part by part. -/
theorem related_newPair (h : σ.Related S) {w w' : NamedValue} (hv : σ.Same S.links v v')
    (hw : σ.Same S.links w w') : σ.Related (S.newPair v w v' w') := by
  refine related_newRow h (Store.kept_newPair _ _ _) (Store.kept_newPair _ _ _) rfl rfl rfl rfl
    (Store.size_newPair _ _ _) (Store.size_newPair _ _ _) (fun k hk => ?_)
  rw [Store.slot_newPair, Store.slot_newPair]
  rcases (by omega : k = 0 ∨ k = 1) with rfl | rfl
  · simpa using Scheme.SameSlot.ready hv
  · simpa using Scheme.SameSlot.ready hw

theorem same_newPair (S : Stage) (v w v' w' : NamedValue) :
    σ.Same (S.newPair v w v' w').links (S.left.newPair (.ready v) (.ready w)).1
      (S.right.newPair (.ready v') (.ready w')).1 :=
  .pair (List.mem_append_left _ (mem_rowLinks.mpr ⟨0, by omega, rfl⟩))
    (List.mem_append_left _ (mem_rowLinks.mpr ⟨1, by omega, rfl⟩))

end Stage

/-! ## Frames -/

/-- A frame that declares the names in slots in a row from `a`. -/
def frameAt (a : Nat) : List String → Frame
  | [] => []
  | x :: xs => ⟨x, a⟩ :: frameAt (a + 1) xs

theorem Store.newFrame_fst {V L : Type} (s : Store V L) (xs : List String) :
    (s.newFrame xs).1 = frameAt s.slots.size xs := by
  have hrow : ∀ a, xs.mapIdx (fun i x => (⟨x, a + i⟩ : Binding)) = frameAt a xs := by
    induction xs with
    | nil => intro a; rfl
    | cons x xs ih =>
      intro a
      rw [List.mapIdx_cons, frameAt, ← ih (a + 1)]
      simp only [Nat.add_zero, Nat.add_assoc, Nat.add_comm 1]
  exact hrow _

theorem frameAt_append (a : Nat) (xs ys : List String) :
    frameAt a (xs ++ ys) = frameAt a xs ++ frameAt (a + xs.length) ys := by
  induction xs generalizing a with
  | nil => rfl
  | cons x xs ih =>
    rw [List.cons_append, frameAt, frameAt, ih, List.cons_append, List.length_cons,
      Nat.add_assoc, Nat.add_comm 1]

theorem length_frameAt (a : Nat) (xs : List String) : (frameAt a xs).length = xs.length := by
  induction xs generalizing a with
  | nil => rfl
  | cons x xs ih => rw [frameAt, List.length_cons, List.length_cons, ih]

theorem name_mem_of_mem_frameAt {b : Binding} (h : b ∈ frameAt a xs) : b.name ∈ xs := by
  induction xs generalizing a with
  | nil => cases h
  | cons x xs ih =>
    rcases List.mem_cons.mp h with rfl | h
    · exact List.mem_cons_self
    · exact List.mem_cons_of_mem _ (ih h)

theorem linked_frameAt {w : List Link} (h : Stage.rowLinks a b xs.length ⊆ w) :
    List.Forall₂ (Scheme.Linked w) (frameAt a xs) (frameAt b xs) := by
  induction xs generalizing a b with
  | nil => exact .nil
  | cons x xs ih =>
    rw [List.length_cons, Stage.rowLinks, List.cons_subset] at h
    exact .cons ⟨rfl, h.1⟩ (ih h.2)

end Mapling
