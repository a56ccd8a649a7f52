import Mapling.Proofs.Arena.Regions

/-! # An account of what decoding makes

A decoder remembers one value for each reference and each closure it has met, and different ones
for different cells. A reference is remembered before its content is decoded, so its cell holds
the content only if that succeeds (`Consistent`). If it fails, the reference stays remembered
without its content; but then the reference is no cell that can be decoded.

Decoding an activation makes a frame for it. The frame is remembered only after the activations
around it have been decoded, and their slots may lead back to the activation, which then gets a
frame of its own before the first one is made.

So the account of a decoder (`Accounted`) is a list of all frames made so far, which is more than
the decoder remembers. Every environment that is known, captured in a closure or around another one
is in the account, under the activation it was asked for; no two frames have a slot in common; and
every slot holds what the word of the activation says, but for the slots that are still pending.
Each function of the decoder adds to the account what it makes, whether it succeeds or not
(`accountable`). -/

namespace Mapling

/-! ## Reading cells -/

/-- The value of a cell that is no pair. References and closures are the ones known. -/
inductive Atom (a : Arena) (d : Decoder) (addr : Nat) : CellValue → Prop
  | int {k : Int} (tag : a.Tagged addr .int) (field : a.field addr Cell.intValue = .ok k) :
      Atom a d addr (.int k)
  | bool {b : Bool} (tag : a.Tagged addr (.bool b)) : Atom a d addr (.bool b)
  | null (tag : a.Tagged addr .null) : Atom a d addr .null
  | unit (tag : a.Tagged addr .unit) : Atom a d addr .unit
  | prim {p : Prim} (tag : a.Tagged addr (.prim p)) : Atom a d addr (.prim p)
  | shared {t : Tag} {v : CellValue} (tag : a.Tagged addr t) (ht : t = .ref ∨ t = .closure)
      (known : d.shared[addr]? = some v) : Atom a d addr v

inductive DecodesTo (a : Arena) (d : Decoder) : Nat → CellValue → Prop
  | atom {addr : Nat} {v : CellValue} (h : Atom a d addr v) : DecodesTo a d addr v
  | pair {addr x y h t : Nat} {v w : CellValue} (tag : a.Tagged addr .pair)
      (hx : a.fieldAddr addr Cell.pairHead = .ok x) (hy : a.fieldAddr addr Cell.pairTail = .ok y)
      (hv : d.store.slot h = .ready v) (hw : d.store.slot t = .ready w) (head : DecodesTo a d x v)
      (tail : DecodesTo a d y w) : DecodesTo a d addr (.pair h t)

/-- The values are the same, but that a pair may stand for another one with the same parts. -/
inductive CopyOf (s : Store Address Site) : CellValue → CellValue → Prop
  | refl (v : CellValue) : CopyOf s v v
  | pair {h t h' t' : Nat} {v w v' w' : CellValue} (hv : s.slot h = .ready v)
      (hw : s.slot t = .ready w) (hv' : s.slot h' = .ready v') (hw' : s.slot t' = .ready w')
      (head : CopyOf s v v') (tail : CopyOf s w w') : CopyOf s (.pair h t) (.pair h' t')

section

variable {a : Arena} {d d' d'' : Decoder} {addr : Nat} {v v' : CellValue}

theorem Atom.mono (h : Atom a d addr v)
    (hshared : ∀ (p : Nat) x, d.shared[p]? = some x → d'.shared[p]? = some x) :
    Atom a d' addr v := by
  cases h with
  | int tag field => exact .int tag field
  | bool tag => exact .bool tag
  | null tag => exact .null tag
  | unit tag => exact .unit tag
  | prim tag => exact .prim tag
  | shared tag ht known => exact .shared tag ht (hshared _ _ known)

theorem DecodesTo.mono (h : DecodesTo a d addr v)
    (hready : ∀ i x, d.store.slot i = .ready x → d'.store.slot i = .ready x)
    (hshared : ∀ (p : Nat) x, d.shared[p]? = some x → d'.shared[p]? = some x) :
    DecodesTo a d' addr v := by
  induction h with
  | atom h => exact .atom (h.mono hshared)
  | pair tag hx hy hv hw _ _ ihv ihw =>
    exact .pair tag hx hy (hready _ _ hv) (hready _ _ hw) ihv ihw

theorem Atom.tag (h : Atom a d addr v) : ∃ t, a.Tagged addr t ∧ t ≠ .pair := by
  cases h with
  | shared tag ht _ => exact ⟨_, tag, by rcases ht with rfl | rfl <;> nofun⟩
  | int tag | bool tag | null tag | unit tag | prim tag => exact ⟨_, tag, nofun⟩

/-- A cell that is no pair has one value. -/
theorem Atom.unique (h : Atom a d addr v) (h' : Atom a d addr v') : v = v' := by
  cases h with
  | int tag field =>
    cases h' with
    | int _ field' =>
      rw [field] at field'
      cases field'
      rfl
    | shared tag' ht' => rcases ht' with rfl | rfl <;> cases tag.unique tag'
    | bool tag' | null tag' | unit tag' | prim tag' => cases tag.unique tag'
  | shared tag ht known =>
    cases h' with
    | shared _ _ known' => exact Option.some.inj (known.symm.trans known')
    | int tag' | bool tag' | null tag' | unit tag' | prim tag' =>
      rcases ht with rfl | rfl <;> cases tag.unique tag'
  | bool tag | null tag | unit tag | prim tag =>
    cases h' with
    | shared tag' ht' => rcases ht' with rfl | rfl <;> cases tag.unique tag'
    | int tag' | bool tag' | null tag' | unit tag' | prim tag' => cases tag.unique tag' <;> rfl

/-- Two values of one cell are copies of each other. -/
theorem DecodesTo.copyOf (h : DecodesTo a d addr v) (h' : DecodesTo a d addr v') :
    CopyOf d.store v v' := by
  induction h generalizing v' with
  | atom h =>
    cases h' with
    | atom h' =>
      rw [h.unique h']
      exact .refl _
    | pair tag' =>
      obtain ⟨t, ht, hne⟩ := h.tag
      exact absurd (ht.unique tag') hne
  | pair tag hx hy hv hw _ _ ihv ihw =>
    cases h' with
    | atom h' =>
      obtain ⟨t, ht, hne⟩ := h'.tag
      exact absurd (ht.unique tag) hne
    | pair _ hx' hy' hv' hw' head' tail' =>
      rw [hx] at hx'
      rw [hy] at hy'
      cases hx'
      cases hy'
      exact .pair hv hw hv' hw' (ihv head') (ihw tail')

end

/-! ## What is remembered -/

/-- The two values are the same reference, or the same closure. -/
inductive SameObject : CellValue → CellValue → Prop
  | ref (c : Nat) : SameObject (.ref c) (.ref c)
  | closure (i : Nat) (c c' : Closure Address Site) : SameObject (.closure i c) (.closure i c')

/-- What is remembered for a cell. A pending reference does not have its content yet. -/
inductive Entry (a : Arena) (refs : Set Nat) (d : Decoder) (p : Nat) : CellValue → Prop
  | ref {c : Nat} (tag : a.Tagged p .ref) (room : c < d.store.cells.size)
      (content : p ∉ refs → ∃ x, a.fieldAddr p Cell.refReferent = .ok x ∧
        DecodesTo a d x (d.store.cell c)) : Entry a refs d p (.ref c)
  | closure {i : Nat} {c : Closure Address Site} {code : Function × List Ident}
      (tag : a.Tagged p .closure) (room : i < d.store.closures)
      (hcode : Decode.closureCode a p = .ok code) (params : c.params = code.2) :
      Entry a refs d p (.closure i c)

/-- What is remembered was decoded from its cells, and from one cell each. -/
structure Consistent (a : Arena) (refs : Set Nat) (d : Decoder) : Prop where
  entry : ∀ (p : Nat) v, d.shared[p]? = some v → Entry a refs d p v
  once : ∀ (p q : Nat) v w, d.shared[p]? = some v → d.shared[q]? = some w → SameObject v w → p = q

section

variable {a : Arena} {refs refs' : Set Nat} {d d' : Decoder} {p addr : Nat} {v : CellValue}

theorem consistent_empty (a : Arena) : Consistent a ∅ .empty := by
  have hnone : ∀ p : Nat, Decoder.empty.shared[p]? = none :=
    fun p => Std.HashMap.getElem?_empty
  refine ⟨fun p v hp => ?_, fun p q v w hp => ?_⟩
  · rw [hnone] at hp
    cases hp
  · rw [hnone] at hp
    cases hp

theorem Entry.mono (h : Entry a refs d p v)
    (hready : ∀ i x, d.store.slot i = .ready x → d'.store.slot i = .ready x)
    (hshared : ∀ (q : Nat) x, d.shared[q]? = some x → d'.shared[q]? = some x)
    (hsize : d.store.cells.size ≤ d'.store.cells.size)
    (hclosures : d.store.closures ≤ d'.store.closures)
    (hcell : ∀ c, v = .ref c → p ∉ refs' → p ∉ refs ∧ d'.store.cell c = d.store.cell c) :
    Entry a refs' d' p v := by
  cases h with
  | ref tag room content =>
    refine .ref tag (room.trans_le hsize) (fun hp => ?_)
    obtain ⟨hp, hsame⟩ := hcell _ rfl hp
    obtain ⟨x, hx, hreads⟩ := content hp
    rw [hsame]
    exact ⟨x, hx, hreads.mono hready hshared⟩
  | closure tag room hcode params => exact .closure tag (room.trans_le hclosures) hcode params

/-- Slots and environments may be added, and empty slots may be filled. -/
theorem Consistent.store (h : Consistent a refs d) (hshared : d'.shared = d.shared)
    (hready : ∀ i x, d.store.slot i = .ready x → d'.store.slot i = .ready x)
    (hcells : d'.store.cells = d.store.cells) (hclosures : d'.store.closures = d.store.closures) :
    Consistent a refs d' := by
  refine ⟨fun p v hp => ?_, fun p q v w hp hq => ?_⟩
  · rw [hshared] at hp
    refine (h.entry p v hp).mono hready (fun q x hq => by rw [hshared, hq]) (by rw [hcells])
      hclosures.ge ?_
    intro c _ hrefs
    exact ⟨hrefs, by rw [Store.cell, hcells, Store.cell]⟩
  · rw [hshared] at hp hq
    exact h.once p q v w hp hq

/-- Remembering a value that nothing else is. -/
theorem Consistent.know (h : Consistent a refs d) {s : Store Address Site}
    (hentry : Entry a refs' (d.know s addr v) addr v)
    (hold : ∀ (p : Nat) w, d.shared[p]? = some w →
      Entry a refs' (d.know s addr v) p w ∧ ¬ SameObject v w ∧ ¬ SameObject w v) :
    Consistent a refs' (d.know s addr v) := by
  refine ⟨fun p w hp => ?_, fun p q w w' hp hq hsame => ?_⟩
  · rw [Decoder.shared_know] at hp
    split at hp
    case isTrue heq =>
      cases hp
      exact heq ▸ hentry
    case isFalse => exact (hold p w hp).1
  · rw [Decoder.shared_know] at hp hq
    split at hp <;> split at hq
    case isTrue.isTrue hp' hq' => exact hp'.symm.trans hq'
    case isTrue.isFalse =>
      cases hp
      exact absurd hsame (hold q w' hq).2.1
    case isFalse.isTrue =>
      cases hq
      exact absurd hsame (hold p w hp).2.2
    case isFalse.isFalse => exact h.once p q w w' hp hq hsame

/-- A reference is remembered, and pending, before its content is known. -/
theorem Consistent.know_ref (h : Consistent a refs d) (htag : a.Tagged addr .ref)
    (hnone : d.shared[addr]? = none) :
    Consistent a (insert addr refs)
      (d.know (d.store.newRef .unit).2 addr (.ref d.store.cells.size)) := by
  have hshared := Decoder.shared_know_of_some (d.store.newRef .unit).2 (.ref d.store.cells.size)
    hnone
  have hsize : (d.know (d.store.newRef .unit).2 addr (.ref d.store.cells.size)).store.cells.size =
      d.store.cells.size + 1 := by
    simp [Decoder.know, Store.newRef]
  refine h.know (.ref htag (by omega) (fun hp => absurd (Set.mem_insert _ _) hp)) ?_
  intro p w hp
  have hentry := h.entry p w hp
  refine ⟨hentry.mono (fun _ _ hi => hi) hshared (by omega) le_rfl ?_, ?_, ?_⟩
  · rintro c rfl hrefs
    refine ⟨fun hp => hrefs (Set.mem_insert_of_mem _ hp), ?_⟩
    cases hentry with
    | ref _ room _ => exact (Store.cell_newRef ..).trans (if_neg (by omega))
  · rintro ⟨⟩
    cases hentry with
    | ref _ room _ => omega
  · rintro ⟨⟩
    cases hentry with
    | ref _ room _ => omega

/-- A reference that has its content is no longer pending. -/
theorem Consistent.settle (h : Consistent a (insert addr refs) d) {c x : Nat}
    (hknown : d.shared[addr]? = some (.ref c)) (hx : a.fieldAddr addr Cell.refReferent = .ok x)
    (hv : DecodesTo a d x v) :
    Consistent a refs { d with store := d.store.setCell c v } := by
  refine ⟨fun p w hp => ?_, h.once⟩
  have hentry := h.entry p w hp
  by_cases hpa : p = addr
  · subst hpa
    cases hknown.symm.trans hp
    cases hentry with
    | ref tag room _ =>
      refine .ref tag (by simpa [Store.setCell] using room) (fun _ => ⟨x, hx, ?_⟩)
      rw [Store.cell_setCell, if_pos ⟨rfl, room⟩]
      exact hv.mono (fun _ _ hi => hi) (fun _ _ hq => hq)
  · refine hentry.mono (fun _ _ hi => hi) (fun _ _ hq => hq) (by simp [Store.setCell]) le_rfl ?_
    rintro c' rfl hrefs
    refine ⟨fun hmem => hrefs (Set.mem_of_mem_insert_of_ne hmem hpa), ?_⟩
    rw [Store.cell_setCell, if_neg]
    rintro ⟨rfl, -⟩
    exact hpa (h.once p addr _ _ hp hknown (.ref c))

/-- A decoder stays consistent when it has decoded a function. -/
theorem Consistent.know_closure (h : Consistent a refs d) (htag : a.Tagged addr .closure)
    (hnone : d.shared[addr]? = none) {code : Function × List Ident}
    (hcode : Decode.closureCode a addr = .ok code) (env : Env) :
    Consistent a refs (d.know (d.store.newClosure ⟨code.2, code.1.site, code.1.body, env⟩).2 addr
      (.closure d.store.closures ⟨code.2, code.1.site, code.1.body, env⟩)) := by
  generalize hc : (⟨code.2, code.1.site, code.1.body, env⟩ : Closure Address Site) = c
  have hshared := Decoder.shared_know_of_some (d.store.newClosure c).2
    (.closure d.store.closures c) hnone
  refine h.know (.closure htag (Nat.lt_succ_self _) hcode (hc ▸ rfl)) ?_
  intro p w hp
  have hentry := h.entry p w hp
  refine ⟨hentry.mono (fun _ _ hi => hi) hshared le_rfl (Nat.le_succ _) ?_, ?_, ?_⟩
  · exact fun c' _ hrefs => ⟨hrefs, rfl⟩
  · rintro ⟨⟩
    cases hentry with
    | closure _ room => omega
  · rintro ⟨⟩
    cases hentry with
    | closure _ room => omega

/-- What is remembered was decoded from its cell. -/
theorem Consistent.decodesTo (h : Consistent a refs d) (hp : d.shared[p]? = some v) :
    DecodesTo a d p v := by
  cases h.entry p v hp with
  | ref tag => exact .atom (.shared tag (.inl rfl) hp)
  | closure tag => exact .atom (.shared tag (.inr rfl) hp)

end

/-! ## The value of a cell -/

section

variable {a : Arena} {refs : Set Nat} {d : Decoder} {p addr : Nat} {v : CellValue}

def ReadsAs (a : Arena) (d : Decoder) (addr : Nat) : Tag → CellValue → Prop
  | .int, v => ∃ k, a.field addr Cell.intValue = .ok k ∧ v = .int k
  | .bool b, v => v = .bool b
  | .null, v => v = .null
  | .unit, v => v = .unit
  | .prim p, v => v = .prim p
  | .pair, v => ∃ x y h t u w, a.fieldAddr addr Cell.pairHead = .ok x ∧
      a.fieldAddr addr Cell.pairTail = .ok y ∧ v = .pair h t ∧ d.store.slot h = .ready u ∧
      d.store.slot t = .ready w ∧ DecodesTo a d x u ∧ DecodesTo a d y w
  | .ref, v | .closure, v => d.shared[addr]? = some v
  | .activation, _ => False

theorem DecodesTo.readsAs (h : DecodesTo a d addr v) :
    ∃ t, a.Tagged addr t ∧ ReadsAs a d addr t v := by
  cases h with
  | atom h =>
    cases h with
    | int tag field => exact ⟨_, tag, _, field, rfl⟩
    | bool tag | null tag | unit tag | prim tag => exact ⟨_, tag, rfl⟩
    | shared tag ht hknown => rcases ht with rfl | rfl <;> exact ⟨_, tag, hknown⟩
  | pair tag hx hy hv hw head tail =>
    exact ⟨_, tag, _, _, _, _, _, _, hx, hy, rfl, hv, hw, head, tail⟩

/-- What is remembered for a reference. -/
theorem Consistent.ref (h : Consistent a refs d) (htag : a.Tagged p .ref)
    (hp : d.shared[p]? = some v) : ∃ c, v = .ref c ∧ (p ∉ refs →
      ∃ x, a.fieldAddr p Cell.refReferent = .ok x ∧ DecodesTo a d x (d.store.cell c)) := by
  cases h.entry p v hp with
  | ref _ _ content => exact ⟨_, rfl, content⟩
  | closure tag => cases htag.unique tag

/-- What is remembered for a closure. -/
theorem Consistent.closure (h : Consistent a refs d) (htag : a.Tagged p .closure)
    (hp : d.shared[p]? = some v) : ∃ i c code, v = .closure i c ∧
      Decode.closureCode a p = .ok code ∧ c.params = code.2 := by
  cases h.entry p v hp with
  | ref tag => cases htag.unique tag
  | closure _ _ hcode params => exact ⟨_, _, _, rfl, hcode, params⟩

end

/-! ## The frames -/

/-- A frame made for the activation at an address, and the environment around it. -/
structure FrameRecord where
  addr : Nat
  frame : Frame
  outer : Env

def FrameRecord.env (e : FrameRecord) : Env := e.frame :: e.outer

def EnvOf (made : List FrameRecord) : Option Nat → Env → Prop
  | none, env => env = []
  | some addr, env => ∃ e ∈ made, e.addr = addr ∧ e.env = env

theorem EnvOf.mono {made made' : List FrameRecord} (h : made ⊆ made') {link : Option Nat}
    {env : Env} (henv : EnvOf made link env) : EnvOf made' link env := by
  cases link with
  | none => exact henv
  | some addr =>
    obtain ⟨e, he, heq⟩ := henv
    exact ⟨e, h he, heq⟩

/-- The slot holds what the word says, unless it is still to be filled. -/
def SlotHolds (a : Arena) (slots : List Nat) (d : Decoder) (i : Nat) (w : Int) : Prop :=
  d.store.slot i = .uninit ∧ (w = Cell.uninit ∨ i ∈ slots) ∨
    ∃ x v, addressOf w = .ok x ∧ d.store.slot i = .ready v ∧ DecodesTo a d x v

/-- The frame has the names and the values of the slots of its activation. -/
def FrameHolds (a : Arena) (slots : List Nat) (d : Decoder) (e : FrameRecord) : Prop :=
  ∃ words, a.slots e.addr = .ok words ∧
    e.frame.map Binding.name = Decode.slotNames a e.addr words.length ∧
    ∀ (i : Nat) b w, e.frame[i]? = some b → words[i]? = some w → SlotHolds a slots d b.slot w

/-- All frames have been recorded, with the slots that are still to be filled and the references
that are still without content. -/
structure Accounted (a : Arena) (made : List FrameRecord) (slots : List Nat) (refs : Set Nat)
    (d : Decoder) : Prop where
  known : ∀ (addr : Nat) env, d.envs[addr]? = some env → EnvOf made (some addr) env
  met : ∀ e ∈ made, d.envs[e.addr]?.isSome
  captured : ∀ (addr : Nat) i c, d.shared[addr]? = some (.closure i c) →
    ∃ link, a.fieldLink addr Cell.closureLink = .ok link ∧ EnvOf made link c.env
  outer : ∀ e ∈ made, ∃ link, a.fieldLink e.addr Cell.activationLink = .ok link ∧
    EnvOf made link e.outer
  frames : ∀ e ∈ made, FrameHolds a slots d e
  once : ∀ e ∈ made, ∀ e' ∈ made, ∀ (i j : Nat) b b', e.frame[i]? = some b →
    e'.frame[j]? = some b' → b.slot = b'.slot → e = e' ∧ i = j
  room : ∀ e ∈ made, ∀ b ∈ e.frame, b.slot < d.store.slots.size
  empty : ∀ i ∈ slots, i < d.store.slots.size ∧ d.store.slot i = .uninit
  contents : Consistent a refs d

/-- Decoding went on from `d` to `d'`. Activations known at the beginning got no new frame, and
whatever was made inside of them has the environment that was known. -/
structure Advance (a : Arena) (d : Decoder) (made : List FrameRecord) (d' : Decoder)
    (made' : List FrameRecord) : Prop where
  size : d.store.slots.size ≤ d'.store.slots.size
  ready : ∀ i v, d.store.slot i = .ready v → d'.store.slot i = .ready v
  shared : ∀ (addr : Nat) v, d.shared[addr]? = some v → d'.shared[addr]? = some v
  envs : ∀ (addr : Nat) env, d.envs[addr]? = some env → d'.envs[addr]? = some env
  old : made ⊆ made'
  new : ∀ e ∈ made', e ∈ made ∨ d.envs[e.addr]? = none ∧ ∀ (p : Nat) env,
    a.fieldLink e.addr Cell.activationLink = .ok (some p) → d.envs[p]? = some env → e.outer = env
  captured : ∀ (addr : Nat) i c, d'.shared[addr]? = some (.closure i c) →
    d.shared[addr]? = some (.closure i c) ∨ ∀ (p : Nat) env,
      a.fieldLink addr Cell.closureLink = .ok (some p) → d.envs[p]? = some env → c.env = env

section

variable {a : Arena} {made made' made'' : List FrameRecord} {slots slots' : List Nat}
  {refs refs' : Set Nat}  {d d' d'' : Decoder} {addr : Nat}

theorem Advance.refl (a : Arena) (d : Decoder) (made : List FrameRecord) :
    Advance a d made d made :=
  ⟨le_rfl, fun _ _ h => h, fun _ _ h => h, fun _ _ h => h, List.Subset.refl _,
    fun _ h => .inl h, fun _ _ _ h => .inl h⟩

theorem Advance.trans (h : Advance a d made d' made') (h' : Advance a d' made' d'' made'') :
    Advance a d made d'' made'' := by
  refine ⟨Nat.le_trans h.size h'.size, fun i v hi => h'.ready i v (h.ready i v hi),
    fun p v hp => h'.shared p v (h.shared p v hp), fun p env hp => h'.envs p env (h.envs p env hp),
    fun e he => h'.old (h.old he), fun e he => ?_, fun p i c hp => ?_⟩
  · rcases h'.new e he with he' | ⟨hnone, houter⟩
    · exact h.new e he'
    · refine .inr ⟨?_, fun p env hlink hp => houter p env hlink (h.envs p env hp)⟩
      by_contra hsome
      obtain ⟨env, henv⟩ := Option.ne_none_iff_exists'.mp hsome
      rw [h.envs _ _ henv] at hnone
      cases hnone
  · rcases h'.captured p i c hp with hp' | hnew
    · exact h.captured p i c hp'
    · exact .inr (fun q env hlink hq => hnew q env hlink (h.envs q env hq))

/-- At the beginning there is nothing to account for. -/
theorem accounted_empty (a : Arena) : Accounted a [] [] ∅ .empty := by
  have hnone : ∀ {β : Type} (p : Nat), (∅ : Std.HashMap Nat β)[p]? = none :=
    fun p => Std.HashMap.getElem?_empty
  refine ⟨fun p env hp => ?_, nofun, fun p i c hp => ?_, nofun, nofun, nofun, nofun, nofun,
    consistent_empty a⟩
  · cases (hnone p).symm.trans hp
  · cases (hnone p).symm.trans hp

variable {words : List Int} {e : FrameRecord} {i : Nat} {v : CellValue} {b : Binding}

theorem Advance.reads (h : Advance a d made d' made') (hv : DecodesTo a d addr v) :
    DecodesTo a d' addr v :=
  hv.mono h.ready h.shared

theorem SlotHolds.mono {w : Int} (h : SlotHolds a slots d i w)
    (hslot : d'.store.slot i = d.store.slot i)
    (hready : ∀ i x, d.store.slot i = .ready x → d'.store.slot i = .ready x)
    (hshared : ∀ (p : Nat) x, d.shared[p]? = some x → d'.shared[p]? = some x)
    (hpending : ∀ j ∈ slots, j = i → j ∈ slots') : SlotHolds a slots' d' i w := by
  rcases h with ⟨huninit, hw⟩ | ⟨x, v, hx, hv, hreads⟩
  · refine .inl ⟨hslot.trans huninit, hw.imp_right (fun hi => hpending i hi rfl)⟩
  · exact .inr ⟨x, v, hx, hslot.trans hv, hreads.mono hready hshared⟩

/-- A slot in a frame of the account is one that there is. -/
theorem Accounted.lt_of_getElem? (h : Accounted a made slots refs d) (he : e ∈ made)
    (hb : e.frame[i]? = some b) : b.slot < d.store.slots.size :=
  h.room e he b (List.mem_of_getElem? hb)

/-- Anything new in the store leaves the account of the frames as it is. -/
theorem Accounted.store (h : Accounted a made slots refs d) {s : Store Address Site}
    (hsize : d.store.slots.size ≤ s.slots.size)
    (hslots : ∀ i < d.store.slots.size, s.slot i = d.store.slot i)
    (hready : ∀ i x, d.store.slot i = .ready x → s.slot i = .ready x)
    (hcontents : Consistent a refs' { d with store := s }) :
    Accounted a made slots refs' { d with store := s } ∧
      Advance a d made { d with store := s } made := by
  refine ⟨⟨h.known, h.met, h.captured, h.outer, fun e he => ?_, h.once,
    fun e he b hb => Nat.lt_of_lt_of_le (h.room e he b hb) hsize, fun i hi => ?_, hcontents⟩,
    ⟨hsize, hready, fun _ _ hp => hp, fun _ _ hp => hp, List.Subset.refl _, fun _ he => .inl he,
      fun _ _ _ hp => .inl hp⟩⟩
  · obtain ⟨words, hwords, hnames, hholds⟩ := h.frames e he
    refine ⟨words, hwords, hnames, fun i b w hb hw => ?_⟩
    exact (hholds i b w hb hw).mono (hslots _ (h.lt_of_getElem? he hb)) hready
      (fun _ _ hp => hp) (fun j hj _ => hj)
  · obtain ⟨hlt, huninit⟩ := h.empty i hi
    exact ⟨Nat.lt_of_lt_of_le hlt hsize, (hslots i hlt).trans huninit⟩

/-- Making a pair of two values that have been decoded. -/
theorem Accounted.newPair (h : Accounted a made slots refs d) {x y : Nat} {head tail : CellValue}
    (htag : a.Tagged addr .pair) (hx : a.fieldAddr addr Cell.pairHead = .ok x)
    (hy : a.fieldAddr addr Cell.pairTail = .ok y) (hhead : DecodesTo a d x head)
    (htail : DecodesTo a d y tail) :
    let d' := { d with store := (d.store.newPair (.ready head) (.ready tail)).2 }
    Accounted a made slots refs d' ∧ Advance a d made d' made ∧
      DecodesTo a d' addr (d.store.newPair (.ready head) (.ready tail)).1 := by
  intro d'
  have hslot := Store.slot_newPair d.store (.ready head) (.ready tail)
  have hkept := d.store.kept_newPair (.ready head) (.ready tail)
  obtain ⟨hacc, hadv⟩ := h.store (s := d'.store) hkept.size hkept.slot (fun _ _ => hkept.ready)
    (h.contents.store rfl (fun _ _ => hkept.ready) rfl rfl)
  refine ⟨hacc, hadv, .pair htag hx hy ?_ ?_ (hadv.reads hhead) (hadv.reads htail)⟩
  · exact (hslot _).trans (if_pos rfl)
  · exact (hslot _).trans ((if_neg (by omega)).trans (if_pos rfl))

/-- Remembering a reference or a closure, one that was not known. -/
theorem Accounted.know (h : Accounted a made slots refs d) {s : Store Address Site}
    (hslots : s.slots = d.store.slots) (hnone : d.shared[addr]? = none)
    (hv : ∀ i c, v = .closure i c → ∃ link, a.fieldLink addr Cell.closureLink = .ok link ∧
      EnvOf made link c.env ∧ ∀ (p : Nat) env, link = some p → d.envs[p]? = some env →
        c.env = env)
    (hcontents : Consistent a refs' (d.know s addr v)) :
    Accounted a made slots refs' (d.know s addr v) ∧ Advance a d made (d.know s addr v) made := by
  have hslot : ∀ i, (d.know s addr v).store.slot i = d.store.slot i := by
    intro i
    rw [Decoder.know, Store.slot, hslots, Store.slot]
  have hready : ∀ i x, d.store.slot i = .ready x → (d.know s addr v).store.slot i = .ready x :=
    fun i x hi => (hslot i).trans hi
  have hshared := Decoder.shared_know_of_some s v hnone
  have hsize : (d.know s addr v).store.slots.size = d.store.slots.size := congrArg _ hslots
  refine ⟨⟨h.known, h.met, fun p i c hp => ?_, h.outer, fun e he => ?_, h.once,
    fun e he b hb => hsize ▸ h.room e he b hb, fun i hi => ?_, hcontents⟩,
    ⟨hsize.ge, hready, hshared, fun _ _ hp => hp, List.Subset.refl _, fun _ he => .inl he,
      fun p i c hp => ?_⟩⟩
  · rw [Decoder.shared_know] at hp
    split at hp
    case isTrue heq =>
      obtain ⟨link, hlink, henv, -⟩ := hv i c (Option.some.inj hp)
      exact heq ▸ ⟨link, hlink, henv⟩
    case isFalse => exact h.captured p i c hp
  · obtain ⟨words, hwords, hnames, hholds⟩ := h.frames e he
    exact ⟨words, hwords, hnames, fun i b w hb hw => (hholds i b w hb hw).mono (hslot _)
      hready hshared (fun j hj _ => hj)⟩
  · obtain ⟨hlt, huninit⟩ := h.empty i hi
    exact ⟨hsize ▸ hlt, (hslot i).trans huninit⟩
  · rw [Decoder.shared_know] at hp
    split at hp
    case isTrue heq =>
      obtain ⟨link, hlink, -, hknown⟩ := hv i c (Option.some.inj hp)
      refine .inr (fun q env hlink' hq => ?_)
      cases hlink.symm.trans (heq ▸ hlink')
      exact hknown q env rfl hq
    case isFalse => exact .inl hp

/-- Making a frame whose slots are all to be filled. The activation may be known already. -/
theorem Accounted.make (h : Accounted a made slots refs d) {link : Option Nat} {outer : Env}
    (hlink : a.fieldLink addr Cell.activationLink = .ok link) (houter : EnvOf made link outer)
    (hwords : a.slots addr = .ok words) : let names := Decode.slotNames a addr words.length
    let e : FrameRecord := ⟨addr, (d.store.newFrame names).1, outer⟩
    Accounted a (e :: made) (e.frame.map Binding.slot ++ slots) refs
      ⟨(d.store.newFrame names).2, d.shared, d.envs.insert addr e.env⟩ := by
  intro names e
  have hinsert : ∀ p : Nat, (d.envs.insert addr e.env)[p]? =
      if addr = p then some e.env else d.envs[p]? := by
    intro p
    simp [Std.HashMap.getElem?_insert]
  have hready : ∀ i x, d.store.slot i = .ready x →
      (d.store.newFrame names).2.slot i = .ready x := fun i x hi => by rw [Store.slot_newFrame, hi]
  have hnew : ∀ b ∈ e.frame, d.store.slots.size ≤ b.slot ∧
      b.slot < (d.store.newFrame names).2.slots.size := by
    intro b hb
    rw [Store.size_newFrame]
    exact Store.size_le_slot_newFrame hb
  have hsub : made ⊆ e :: made := List.subset_cons_self _ _
  refine ⟨fun p env hp => ?_, fun e' he' => ?_, fun p i c hp => ?_, fun e' he' => ?_,
    fun e' he' => ?_, ?_, fun e' he' b hb => ?_, fun i hi => ?_,
    h.contents.store rfl hready rfl rfl⟩
  · rw [hinsert] at hp
    split at hp
    · rename_i heq
      exact ⟨e, .head _, heq, Option.some.inj hp⟩
    · exact (h.known p env hp).mono hsub
  · rw [hinsert]
    split
    · rfl
    · rename_i hne
      rcases List.mem_cons.mp he' with rfl | he'
      · exact absurd rfl hne
      · exact h.met e' he'
  · obtain ⟨link', hlink', henv⟩ := h.captured p i c hp
    exact ⟨link', hlink', henv.mono hsub⟩
  · rcases List.mem_cons.mp he' with rfl | he'
    · exact ⟨link, hlink, houter.mono hsub⟩
    · obtain ⟨link', hlink', henv⟩ := h.outer e' he'
      exact ⟨link', hlink', henv.mono hsub⟩
  · rcases List.mem_cons.mp he' with rfl | he'
    · refine ⟨words, hwords, Store.map_name_newFrame _ _, fun i b w hb _ => .inl ⟨?_, .inr ?_⟩⟩
      · rw [Store.slot_newFrame]
        exact Store.slot_eq_uninit (hnew b (List.mem_of_getElem? hb)).1
      · exact List.mem_append_left _ (List.mem_map_of_mem (List.mem_of_getElem? hb))
    · obtain ⟨words', hwords', hnames', hholds⟩ := h.frames e' he'
      exact ⟨words', hwords', hnames', fun i b w hb hw => (hholds i b w hb hw).mono
        (Store.slot_newFrame _ _ _) hready (fun _ _ hp => hp)
        (fun j hj _ => List.mem_append_right _ hj)⟩
  · -- the slots of the new frame are in order, and beyond all the others
    intro e1 he1 e2 he2 i j b b' hb hb' hslot
    rcases List.mem_cons.mp he1 with rfl | he1 <;> rcases List.mem_cons.mp he2 with rfl | he2
    · rw [Store.getElem?_newFrame] at hb hb'
      obtain ⟨x, -, rfl⟩ := Option.map_eq_some_iff.mp hb
      obtain ⟨y, -, rfl⟩ := Option.map_eq_some_iff.mp hb'
      exact ⟨rfl, Nat.add_left_cancel hslot⟩
    · have hge := (hnew b (List.mem_of_getElem? hb)).1
      have hlt := h.lt_of_getElem? he2 hb'
      omega
    · have hge := (hnew b' (List.mem_of_getElem? hb')).1
      have hlt := h.lt_of_getElem? he1 hb
      omega
    · exact h.once e1 he1 e2 he2 i j b b' hb hb' hslot
  · rcases List.mem_cons.mp he' with rfl | he'
    · exact (hnew b hb).2
    · have hlt := h.room e' he' b hb
      have hsize := Store.size_newFrame d.store names
      dsimp only
      omega
  · dsimp only
    rw [Store.slot_newFrame]
    rcases List.mem_append.mp hi with hi | hi
    · obtain ⟨b, hb, rfl⟩ := List.mem_map.mp hi
      exact ⟨(hnew b hb).2, Store.slot_eq_uninit (hnew b hb).1⟩
    · obtain ⟨hlt, huninit⟩ := h.empty i hi
      have hsize := Store.size_newFrame d.store names
      exact ⟨by omega, huninit⟩

/-- Making a frame goes on from any state in which the activation was not known. In the last state
before it may be known: decoding what is around it may have led to it. -/
theorem Advance.make (h : Advance a d made d' made') (hnone : d.envs[addr]? = none)
    (names : List String) (outer : Env)
    (houter : ∀ (p : Nat) env, a.fieldLink addr Cell.activationLink = .ok (some p) →
      d.envs[p]? = some env → outer = env) :
    let e : FrameRecord := ⟨addr, (d'.store.newFrame names).1, outer⟩
    Advance a d made ⟨(d'.store.newFrame names).2, d'.shared, d'.envs.insert addr e.env⟩
      (e :: made') := by
  intro e
  refine ⟨?_, fun i v hi => ?_, h.shared, fun p env hp => ?_, fun x hx => .tail _ (h.old hx),
    fun x hx => ?_, h.captured⟩
  · have hsize := Store.size_newFrame d'.store names
    have hle := h.size
    dsimp only
    omega
  · rw [Store.slot_newFrame, h.ready i v hi]
  · have hne : ¬ (addr == p) = true := by
      intro heq
      rw [beq_iff_eq] at heq
      rw [heq, hp] at hnone
      cases hnone
    rw [Std.HashMap.getElem?_insert, if_neg hne]
    exact h.envs p env hp
  · rcases List.mem_cons.mp hx with rfl | hx
    · exact .inr ⟨hnone, houter⟩
    · exact h.new x hx

/-- The next slot to be filled, if the word says that it stays empty. -/
theorem Accounted.leave (h : Accounted a made (b.slot :: slots) refs d) (he : e ∈ made)
    (hb : e.frame[i]? = some b) (hwords : a.slots e.addr = .ok words)
    (hw : words[i]? = some Cell.uninit) : Accounted a made slots refs d := by
  refine ⟨h.known, h.met, h.captured, h.outer, fun e' he' => ?_, h.once, h.room,
    fun j hj => h.empty j (.tail _ hj), h.contents⟩
  obtain ⟨words', hwords', hnames', hholds⟩ := h.frames e' he'
  refine ⟨words', hwords', hnames', fun j b' w' hb' hw' => ?_⟩
  -- only this slot was pending and is not any more; its word says that it is empty
  rcases hholds j b' w' hb' hw' with ⟨huninit, hempty | hmem⟩ | hready
  · exact .inl ⟨huninit, .inl hempty⟩
  · rcases List.mem_cons.mp hmem with heq | hmem
    · obtain ⟨rfl, rfl⟩ := h.once e' he' e he j i b' b hb' hb heq
      rw [hwords] at hwords'
      cases hwords'
      rw [hw] at hw'
      exact .inl ⟨huninit, .inl (Option.some.inj hw').symm⟩
    · exact .inl ⟨huninit, .inr hmem⟩
  · exact .inr hready

/-- Filling the next slot. -/
theorem Accounted.fill {x : Nat} {w : Int} (h : Accounted a made (b.slot :: slots) refs d)
    (he : e ∈ made) (hb : e.frame[i]? = some b) (hwords : a.slots e.addr = .ok words)
    (hw : words[i]? = some w) (hx : addressOf w = .ok x) (hv : DecodesTo a d x v)
    (hfresh : b.slot ∉ slots) :
    Accounted a made slots refs { d with store := d.store.setSlot b.slot (.ready v) } ∧
      Advance a d made { d with store := d.store.setSlot b.slot (.ready v) } made := by
  obtain ⟨hlt, huninit⟩ := h.empty b.slot (.head _)
  have hother : ∀ j, j ≠ b.slot → (d.store.setSlot b.slot (.ready v)).slot j = d.store.slot j := by
    intro j hj
    rw [Store.slot_setSlot, if_neg (fun hjb => hj hjb.1.symm)]
  have hready : ∀ j y, d.store.slot j = .ready y →
      (d.store.setSlot b.slot (.ready v)).slot j = .ready y := by
    intro j y hj
    rw [hother j, hj]
    rintro rfl
    rw [huninit] at hj
    cases hj
  refine ⟨⟨h.known, h.met, h.captured, h.outer, fun e' he' => ?_, h.once,
    fun e' he' b' hb' => ?_, fun j hj => ?_, h.contents.store rfl hready rfl rfl⟩,
    ⟨?_, hready, fun _ _ hp => hp, fun _ _ hp => hp,
    List.Subset.refl _, fun _ he => .inl he, fun _ _ _ hp => .inl hp⟩⟩
  · obtain ⟨words', hwords', hnames', hholds⟩ := h.frames e' he'
    refine ⟨words', hwords', hnames', fun j b' w' hb' hw' => ?_⟩
    by_cases hslot : b'.slot = b.slot
    · -- no other slot of a frame is this one
      obtain ⟨rfl, rfl⟩ := h.once e' he' e he j i b' b hb' hb hslot
      rw [hwords] at hwords'
      cases hwords'
      rw [hw] at hw'
      cases hw'
      refine .inr ⟨x, v, hx, ?_, hv.mono hready (fun _ _ hp => hp)⟩
      dsimp only
      rw [hslot, Store.slot_setSlot, if_pos ⟨rfl, hlt⟩]
    · refine (hholds j b' w' hb' hw').mono (hother _ hslot) hready (fun _ _ hp => hp) ?_
      rintro k hk rfl
      rcases List.mem_cons.mp hk with hk | hk
      · exact absurd hk hslot
      · exact hk
  · dsimp only
    rw [Store.size_setSlot]
    exact h.room e' he' b' hb'
  · obtain ⟨hlt', huninit'⟩ := h.empty j (.tail _ hj)
    dsimp only
    rw [Store.size_setSlot, hother j (fun hjb => hfresh (hjb ▸ hj))]
    exact ⟨hlt', huninit'⟩
  · dsimp only
    rw [Store.size_setSlot]

end

/-- Reading the arena. -/
theorem Decode.ensures_read {α β : Type} {d : Decoder} {E : ArenaError → Decoder → Prop}
    {r : Except ArenaError α} {f : α → Decode β}
    {Q : β → Decoder → Prop} (herror : ∀ e, r = .error e → E e d)
    (hok : ∀ x, r = .ok x → Ensures (f x) d Q E) : Ensures (ofExcept r >>= f) d Q E := by
  cases r with
  | ok x => exact .step rfl (hok x rfl)
  | error e =>
    have hfails : Ensures (ofExcept (.error e) : Decode α) d (fun _ _ => False) E :=
      .throw (herror e rfl)
    exact hfails.bind (fun _ _ hfalse => hfalse.elim)

/-! ## Every step is accounted for -/

/-- Whatever comes of the computation, what it makes can be added to the account since `d0`. If it
succeeds, all slots but the pending ones are filled, and so are all references; if it fails, more
may be pending, but no reference that can be decoded. -/
def Accounts {α : Type} (a : Arena) (made0 : List FrameRecord) (d0 : Decoder) (slots : List Nat)
    (refs : Set Nat) (d : Decoder) (x : Decode α) (Q : Decoder → α → Prop) : Prop :=
  Ensures x d
    (fun v d' => ∃ made', Advance a d0 made0 d' made' ∧ Accounted a made' slots refs d' ∧ Q d' v)
    (fun _ d' => ∃ made' slots' refs', Advance a d0 made0 d' made' ∧
      Accounted a made' slots' refs' d' ∧ ∀ p ∈ refs', p ∈ refs ∨ ¬ Healthy a p)

namespace Accounts

variable {α β : Type} {a : Arena} {made made0 : List FrameRecord} {slots slots' : List Nat}
  {refs : Set Nat} {d d0 : Decoder} {x : Decode α} {Q : Decoder → α → Prop}
  {Q' : Decoder → β → Prop}

/-- A computation accounted for from where it starts is accounted for from where it came. -/
theorem since (hadv : Advance a d0 made0 d made) (hx : Accounts a made d slots refs d x Q) :
    Accounts a made0 d0 slots refs d x Q := by
  refine Ensures.mono hx ?_ ?_
  · rintro v d' ⟨made', hadv', hrest⟩
    exact ⟨made', hadv.trans hadv', hrest⟩
  · rintro e d' ⟨made', slots', refs', hadv', hrest⟩
    exact ⟨made', slots', refs', hadv.trans hadv', hrest⟩

theorem throw (hadv : Advance a d0 made0 d made) (h : Accounted a made slots' refs d)
    (e : ArenaError) : Accounts a made0 d0 slots refs d (throw e : Decode α) Q :=
  Ensures.throw ⟨made, slots', refs, hadv, h, fun _ => .inl⟩

variable {f : α → Decode β}

theorem bind (hx : Accounts a made0 d0 slots refs d x Q)
    (hf : ∀ made' d' v, Advance a d0 made0 d' made' → Accounted a made' slots refs d' → Q d' v →
      Accounts a made0 d0 slots' refs d' (f v) Q') :
    Accounts a made0 d0 slots' refs d (x >>= f) Q' := by
  refine Ensures.bind hx ?_
  rintro v d' ⟨made', hadv, hd', hv⟩
  exact hf made' d' v hadv hd' hv

/-- A step that always succeeds. -/
theorem step {v : α} {d1 : Decoder} (hx : outcome x d = some (.ok v, d1))
    (hf : Accounts a made0 d0 slots refs d1 (f v) Q') :
    Accounts a made0 d0 slots refs d (x >>= f) Q' :=
  Ensures.step hx hf

/-- Reading the arena. -/
theorem read (hadv : Advance a d0 made0 d made) (h : Accounted a made slots refs d)
    {r : Except ArenaError α} (hf : ∀ v, r = .ok v → Accounts a made0 d0 slots' refs d (f v) Q') :
    Accounts a made0 d0 slots' refs d (Decode.ofExcept r >>= f) Q' :=
  Decode.ensures_read (fun _ _ => ⟨made, slots, refs, hadv, h, fun _ => .inl⟩) hf

end Accounts

def EnvKnown (d : Decoder) : Option Nat → Env → Prop
  | none, env => env = []
  | some addr, env => d.envs[addr]? = some env

theorem EnvKnown.envOf {a : Arena} {made : List FrameRecord} {slots : List Nat} {refs : Set Nat}
    {d : Decoder} (hd : Accounted a made slots refs d) {link : Option Nat} {env : Env}
    (h : EnvKnown d link env) :
    EnvOf made link env := by
  cases link with
  | none => exact h
  | some addr => exact hd.known addr env h

structure Accountable (a : Arena) (n : Nat) : Prop where
  value : ∀ made slots refs d addr, Accounted a made slots refs d →
    Accounts a made d slots refs d (Decode.value a n addr) (fun d' v => DecodesTo a d' addr v)
  reference : ∀ made slots refs d addr, Accounted a made slots refs d → a.Tagged addr .ref →
    d.shared[addr]? = none →
    Accounts a made d slots refs d (Decode.reference a n addr) (fun d' v => DecodesTo a d' addr v)
  closure : ∀ made slots refs d addr, Accounted a made slots refs d → a.Tagged addr .closure →
    Accounts a made d slots refs d (Decode.closure a n addr) (fun d' v => DecodesTo a d' addr v)
  frame : ∀ made slots refs d link, Accounted a made slots refs d →
    Accounts a made d slots refs d (Decode.frame a n link) (fun d' env => EnvKnown d' link env)
  fill : ∀ made slots refs d (e : FrameRecord) (words : List Int) (k : Nat), e ∈ made →
    a.slots e.addr = .ok words → e.frame.length = words.length →
    Accounted a made ((e.frame.drop k).map Binding.slot ++ slots) refs d →
    (∀ b ∈ e.frame.drop k, b.slot ∉ slots) →
    Accounts a made d slots refs d (Decode.fill a n (e.frame.drop k) (words.drop k))
      (fun _ _ => True)

namespace Accountable

variable {a : Arena} {n : Nat} {made : List FrameRecord} {slots : List Nat}
  {refs : Set Nat} {d : Decoder}
  {addr : Nat}

/-- Decoding a cell gives a value that the account has for it. -/
theorem value_succ (h : Accountable a n) (hd : Accounted a made slots refs d) :
    Accounts a made d slots refs d (Decode.value a (n + 1) addr)
      (fun d' v => DecodesTo a d' addr v) := by
  have hadv := Advance.refl a d made
  have hatom : ∀ {v}, Atom a d addr v → Accounts a made d slots refs d (pure v)
      (fun d' v => DecodesTo a d' addr v) :=
    fun hv => .pure ⟨made, hadv, hd, .atom hv⟩
  rw [Decode.value_eq_byWord]
  refine .step (outcome_get d) ?_
  cases hshared : d.shared[addr]? with
  | some v => exact .pure ⟨made, hadv, hd, hd.contents.decodesTo hshared⟩
  | none =>
    refine .read hadv hd (fun w hw => ?_)
    have htagged : ∀ {t}, Tag.ofWord? w = some t → a.Tagged addr t := fun ht => ⟨w, hw, ht⟩
    unfold Decode.byWord
    split
    case h_1 ht => exact .read hadv hd (fun k hk => hatom (.int (htagged ht) hk))
    case h_2 ht => exact hatom (.bool (htagged ht))
    case h_3 ht => exact hatom (.null (htagged ht))
    case h_4 ht => exact hatom (.unit (htagged ht))
    case h_5 ht => exact hatom (.prim (htagged ht))
    case h_6 ht =>
      refine .read hadv hd (fun y hy => .bind (h.value made slots refs d y hd) ?_)
      intro made1 d1 tail hadv1 hd1 htail
      refine .since hadv1 (.read (.refl a d1 made1) hd1 (fun x hx =>
        .bind (h.value made1 slots refs d1 x hd1) ?_))
      intro made2 d2 head hadv2 hd2 hhead
      obtain ⟨hd3, hadv3, hv⟩ := hd2.newPair (htagged ht) hx hy hhead (hadv2.reads htail)
      rintro o d3 ho
      cases ho
      exact ⟨made2, hadv2.trans hadv3, hd3, hv⟩
    case h_7 ht => exact h.reference made slots refs d addr hd (htagged ht) hshared
    case h_8 ht => exact h.closure made slots refs d addr hd (htagged ht)
    case h_9 => exact .throw hadv hd _
    case h_10 => exact .throw hadv hd _

/-- A reference is known before what it refers to. If that cannot be decoded, it stays pending. -/
theorem reference_succ (h : Accountable a n) (hd : Accounted a made slots refs d)
    (htag : a.Tagged addr .ref) (hnone : d.shared[addr]? = none) :
    Accounts a made d slots refs d (Decode.reference a (n + 1) addr)
      (fun d' v => DecodesTo a d' addr v) := by
  rw [Decode.reference]
  obtain ⟨hd1, hadv1⟩ := hd.know (s := (d.store.newRef .unit).2) (v := .ref d.store.cells.size) rfl
    hnone (by rintro _ _ ⟨⟩) (hd.contents.know_ref htag hnone)
  have hknown := Decoder.shared_know d (d.store.newRef .unit).2 addr (.ref d.store.cells.size) addr
  rw [if_pos rfl] at hknown
  refine .step (v := d.store.cells.size) rfl (.step (v := ⟨⟩) rfl ?_)
  change Accounts a made d slots refs
    (d.know (d.store.newRef .unit).2 addr (.ref d.store.cells.size)) _ _
  generalize d.know (d.store.newRef .unit).2 addr (.ref d.store.cells.size) = d1 at *
  refine .since hadv1 ?_
  have hless : ¬ Healthy a addr → ∀ p ∈ insert addr refs, p ∈ refs ∨ ¬ Healthy a p := by
    rintro hsick p (rfl | hp)
    · exact .inr hsick
    · exact .inl hp
  refine Decode.ensures_read (fun e he => ⟨made, slots, _, .refl a d1 made, hd1, hless ?_⟩)
    (fun x hx => ?_)
  · intro hhealthy
    obtain ⟨x, hx, -⟩ := hhealthy.referent htag
    cases he.symm.trans hx
  have hvalue := h.value made slots _ d1 x hd1
  refine .bind (Q := fun v d' => ∃ made', Advance a d1 made d' made' ∧
    Accounted a made' slots (insert addr refs) d' ∧ DecodesTo a d' x v) ?_ ?_
  · intro o d2 ho
    cases o with
    | ok v => exact hvalue _ _ ho
    | error e =>
      obtain ⟨made2, slots2, refs2, hadv2, hd2, hless2⟩ := hvalue _ _ ho
      refine ⟨made2, slots2, refs2, hadv2, hd2, fun p hp => (hless2 p hp).elim (hless ?_ p) .inr⟩
      intro hhealthy
      obtain ⟨x', hx', hhealthy⟩ := hhealthy.referent htag
      cases hx.symm.trans hx'
      obtain ⟨v, hok⟩ := hhealthy.isOk ho
      cases hok
  · rintro v d2 ⟨made2, hadv2, hd2, hv⟩
    have hknown2 := hadv2.shared _ _ hknown
    obtain ⟨hd3, hadv3⟩ := hd2.store (s := d2.store.setCell d.store.cells.size v) le_rfl
      (fun _ _ => rfl) (fun _ _ hi => hi) (hd2.contents.settle hknown2 hx hv)
    refine .step (a := ⟨⟩) rfl (.pure ⟨made2, hadv2.trans hadv3, hd3, ?_⟩)
    exact hd3.contents.decodesTo (hadv3.shared _ _ hknown2)

/-- A closure is made after its environment, unless the environment led to it. -/
theorem closure_succ (h : Accountable a n) (hd : Accounted a made slots refs d)
    (htag : a.Tagged addr .closure) :
    Accounts a made d slots refs d (Decode.closure a (n + 1) addr)
      (fun d' v => DecodesTo a d' addr v) := by
  have hadv := Advance.refl a d made
  rw [Decode.closure]
  refine .read hadv hd (fun code hcode => .read hadv hd (fun link hlink => ?_))
  refine .bind (h.frame made slots refs d link hd) (fun made1 d1 env hadv1 hd1 henv => ?_)
  refine .since hadv1 (.step (outcome_get d1) ?_)
  cases hshared : d1.shared[addr]? with
  | some v => exact .pure ⟨made1, .refl a d1 made1, hd1, hd1.contents.decodesTo hshared⟩
  | none =>
    obtain ⟨hd2, hadv2⟩ := hd1.know
      (s := (d1.store.newClosure ⟨code.2, code.1.site, code.1.body, env⟩).2) rfl hshared (by
        rintro i c ⟨⟩
        refine ⟨link, hlink, henv.envOf hd1, ?_⟩
        rintro p env' rfl hp
        exact Option.some.inj (henv.symm.trans hp))
      (hd1.contents.know_closure htag hshared hcode env)
    refine .step rfl (.step (v := ⟨⟩) rfl (.pure ⟨made1, hadv2, hd2, hd2.contents.decodesTo ?_⟩))
    exact (Decoder.shared_know ..).trans (if_pos rfl)

/-- Decoding an activation gives an environment that the account has for it. -/
theorem frame_succ (h : Accountable a n) (hd : Accounted a made slots refs d) (link : Option Nat) :
    Accounts a made d slots refs d (Decode.frame a (n + 1) link)
      (fun d' env => EnvKnown d' link env) := by
  have hadv := Advance.refl a d made
  cases link with
  | none =>
    rw [Decode.frame]
    exact .pure ⟨made, hadv, hd, rfl⟩
  | some addr =>
    rw [Decode.frame]
    refine .step (outcome_get d) ?_
    cases hknown : d.envs[addr]? with
    | some env => exact .pure ⟨made, hadv, hd, hknown⟩
    | none =>
      refine .read hadv hd (fun link hlink => ?_)
      -- decoding what is around may lead to this activation: it gets another frame then
      refine .bind (h.frame made slots refs d link hd) (fun made1 d1 outer hadv1 hd1 houter => ?_)
      refine .read hadv1 hd1 (fun words hwords => ?_)
      have hmade := hd1.make hlink (houter.envOf hd1) hwords
      have hadv2 := hadv1.make hknown (Decode.slotNames a addr words.length) outer (by
        intro p env hp henv
        rw [hlink] at hp
        cases hp
        exact Option.some.inj (houter.symm.trans (hadv1.envs p env henv)))
      refine .step rfl (.step rfl (.since hadv2 (.bind (h.fill _ slots refs _ _ words 0 (.head _)
        hwords ?_ hmade ?_) (fun made3 d3 _ hadv3 hd3 _ => .pure ⟨made3, hadv3, hd3, ?_⟩))))
      · simp [Store.newFrame, Decode.slotNames]
      · intro b hb hmem
        have hge := (Store.size_le_slot_newFrame (List.mem_of_mem_drop hb)).1
        have hlt := (hd1.empty _ hmem).1
        omega
      · exact hadv3.envs _ _ (by simp)

/-- Filling the slots of a frame keeps the account. -/
theorem fill_succ (h : Accountable a n) {e : FrameRecord} {words : List Int} {k : Nat}
    (he : e ∈ made) (hwords : a.slots e.addr = .ok words)
    (hlength : e.frame.length = words.length)
    (hd : Accounted a made ((e.frame.drop k).map Binding.slot ++ slots) refs d)
    (hslots : ∀ b ∈ e.frame.drop k, b.slot ∉ slots) :
    Accounts a made d slots refs d (Decode.fill a (n + 1) (e.frame.drop k) (words.drop k))
      (fun _ _ => True) := by
  have hadv := Advance.refl a d made
  by_cases hk : k < e.frame.length
  · have hk' : k < words.length := hlength ▸ hk
    have hb : e.frame[k]? = some e.frame[k] := List.getElem?_eq_getElem hk
    have hw : words[k]? = some words[k] := List.getElem?_eq_getElem hk'
    rw [List.drop_eq_getElem_cons hk] at hd hslots ⊢
    rw [List.drop_eq_getElem_cons hk', Decode.fill]
    have hrest : ∀ b ∈ e.frame.drop (k + 1), b.slot ∉ slots :=
      fun b hb => hslots b (.tail _ hb)
    by_cases hempty : words[k] = Cell.uninit
    · rw [if_neg (by simpa using hempty)]
      exact h.fill made slots refs d e words (k + 1) he hwords hlength
        (hd.leave he hb hwords (hempty ▸ hw)) hrest
    · rw [if_pos hempty]
      refine .read hadv hd (fun x hx => ?_)
      refine .bind (h.value made _ refs d x hd) (fun made1 d1 v hadv1 hd1 hv => ?_)
      -- the slots of a frame are different from each other
      have hfresh : e.frame[k].slot ∉ (e.frame.drop (k + 1)).map Binding.slot ++ slots := by
        intro hmem
        rcases List.mem_append.mp hmem with hmem | hmem
        · obtain ⟨b, hb', hslot⟩ := List.mem_map.mp hmem
          obtain ⟨j, hj⟩ := List.mem_iff_getElem?.mp hb'
          rw [List.getElem?_drop] at hj
          obtain ⟨-, hij⟩ := hd.once e he e he _ _ _ _ hj hb hslot
          omega
        · exact hslots _ (.head _) hmem
      obtain ⟨hd2, hadv2⟩ := hd1.fill (hadv1.old he) hb hwords hw hx hv hfresh
      refine .step rfl (.since (hadv1.trans hadv2) ?_)
      exact h.fill made1 slots refs _ e words (k + 1) (hadv1.old he) hwords hlength hd2 hrest
  · rw [List.drop_eq_nil_of_le (Nat.le_of_not_lt hk)] at hd ⊢
    rw [Decode.fill]
    · exact .pure ⟨made, hadv, hd, trivial⟩
    · simp

end Accountable

theorem accountable (a : Arena) (n : Nat) : Accountable a n := by
  induction n with
  | zero =>
    exact ⟨fun _ _ _ _ _ _ => .of_none rfl, fun _ _ _ _ _ _ _ _ => .of_none rfl,
      fun _ _ _ _ _ _ _ => .of_none rfl, fun _ _ _ _ _ _ => .of_none rfl,
      fun _ _ _ _ _ _ _ _ _ _ _ _ => .of_none rfl⟩
  | succ n ih =>
    exact ⟨fun _ _ _ _ _ hd => ih.value_succ hd,
      fun _ _ _ _ _ hd htag hnone => ih.reference_succ hd htag hnone,
      fun _ _ _ _ _ hd htag => ih.closure_succ hd htag,
      fun _ _ _ _ link hd => ih.frame_succ hd link,
      fun _ _ _ _ _ _ _ he hwords hlength hd hslots =>
        ih.fill_succ he hwords hlength hd hslots⟩

end Mapling
