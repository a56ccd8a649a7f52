import Mapling.Proofs.Arena.World

/-! # Reading the cells of values

When a run matches the evaluator, every read of a cell that represents a value succeeds and gives
what the value has there; likewise for the activations that represent an environment. -/

namespace Mapling

variable {t : Tag} {link : Option Nat} {v : Value Address Layout} {i id : Nat}
  {c : Closure Address Layout} {env : Env}

theorem linkOf_linkWord (link : Option Nat) : linkOf (Cell.linkWord link) = .ok link := by
  cases link with
  | none => rfl
  | some a =>
    have hne : ((a : Nat) : Int) ≠ Cell.noLink := by
      intro h
      unfold Cell.noLink at h
      omega
    rw [Cell.linkWord, linkOf, if_neg hne]
    rfl

namespace Arena

variable {a : Arena} {addr : Nat}
variable {i n : Nat} {w : Int}

theorem word_eq (h : a.words[i]? = some w) : a.word i = .ok w := by
  rw [word, h]

theorem cellSize_eq (h : t.size? = some n) (a : Arena) (addr : Nat) :
    a.cellSize addr t.word = .ok n := by
  simp only [cellSize, Tag.ofWord?_word, h]

theorem cellSize_activation {count : Nat}
    (h : a.words[addr + Cell.activationCount]? = some (count : Int)) :
    a.cellSize addr Tag.activation.word = .ok (Cell.activationSlots + count) := by
  simp only [cellSize, Tag.ofWord?_word, Tag.size?, word_eq h]
  rfl

theorem cellEnd_eq (htag : a.words[addr]? = some w) (hsize : a.cellSize addr w = .ok n)
    (hend : addr + n ≤ a.words.size) : a.cellEnd addr = .ok (addr + n) := by
  simp only [cellEnd, tagWord, word_eq htag, hsize, bind, Except.bind]
  exact if_pos hend

theorem field_eq {stop : Nat} (hend : a.cellEnd addr = .ok stop) (h0 : 0 < i)
    (hi : addr + i < stop) (hw : a.words[addr + i]? = some w) : a.field addr i = .ok w := by
  have hout : ¬ (i = 0 ∨ stop ≤ addr + i) := by omega
  simp only [field, hend, bind, Except.bind, if_neg hout, word_eq hw]

/-- A word of a cell whose tag says how long it is. -/
theorem field_of_tag (htag : a.words[addr]? = some t.word) (hsize : t.size? = some n)
    (hend : addr + n ≤ a.words.size) (h0 : 0 < i) (hi : i < n) (hw : a.words[addr + i]? = some w) :
    a.field addr i = .ok w :=
  field_eq (cellEnd_eq htag (cellSize_eq hsize a addr) hend) h0 (by omega) hw

theorem fieldAddr_eq {x : Nat} (h : a.field addr i = .ok (x : Int)) :
    a.fieldAddr addr i = .ok x := by
  rw [fieldAddr, h]
  rfl

theorem fieldLink_eq (h : a.field addr i = .ok (Cell.linkWord link)) :
    a.fieldLink addr i = .ok link := by
  rw [fieldLink, h]
  exact linkOf_linkWord link

end Arena

section

variable {forms : List (Nat × Form)} {m : Machine} {ω : World} {r : Run}
  {s : Store Address Layout}

namespace Matches

theorem lt_size (h : Matches forms m ω r s) {p : Nat} {role : Role} (hp : ω[p]? = some role) :
    p < r.arena.words.size := by
  rw [h.size]
  exact (List.getElem?_eq_some_iff.mp hp).1

/-! ## Values -/

variable {addr : Nat} {frame : Frame} {env : Env}

variable (h : Matches forms m ω r s)
include h

theorem words_tag (hv : Rep ω v addr) : r.arena.words[addr]? = some v.tag.word := by
  cases hv with
  | int tag => exact h.holds _ _ tag
  | bool tag => exact h.holds _ _ tag
  | null tag => exact h.holds _ _ tag
  | unit tag => exact h.holds _ _ tag
  | prim tag => exact h.holds _ _ tag
  | pair tag => exact h.holds _ _ tag
  | ref tag => exact h.holds _ _ tag
  | closure tag => exact h.holds _ _ tag

/-- A cell represents values of one kind only. -/
theorem tag_eq {w : Value Address Layout} (hv : Rep ω v addr) (hw : Rep ω w addr) :
    v.tag = w.tag := by
  have hword := (h.words_tag hv).symm.trans (h.words_tag hw)
  exact Tag.word_inj (Option.some.inj hword)

theorem field_int {k : Int} (hv : Rep ω (.int k) addr) :
    r.arena.field addr Cell.intValue = .ok k := by
  have htag := h.words_tag hv
  cases hv with
  | int tag value =>
    have hlt := h.lt_size value
    exact Arena.field_of_tag htag rfl hlt (by decide) (by decide) (h.holds _ _ value)

/-- The parts of a pair are those of its cell. -/
theorem fieldAddr_pair {j : Nat} (hv : Rep ω (.pair i j) addr) :
    (∃ x v, r.arena.fieldAddr addr Cell.pairHead = .ok x ∧ x < addr ∧ s.slot i = .ready v ∧
      Rep ω v x) ∧
    ∃ y w, r.arena.fieldAddr addr Cell.pairTail = .ok y ∧ y < addr ∧ s.slot j = .ready w ∧
      Rep ω w y ∧ w.isList = true := by
  have htag := h.words_tag hv
  cases hv with
  | @pair _ _ _ x y tag head tail hx hy list =>
    have hlt := h.lt_size tail
    obtain ⟨v, hs, hw, hv⟩ := h.holds _ _ head
    obtain ⟨v', hs', hw', hv'⟩ := h.holds _ _ tail
    have hhead := Arena.field_of_tag htag rfl hlt (by decide) (by decide) hw
    have htail := Arena.field_of_tag htag rfl hlt (by decide) (by decide) hw'
    obtain ⟨t, ht, hlist⟩ := list
    have hsame : t.word = v'.tag.word :=
      Option.some.inj ((h.holds _ _ hlist).symm.trans (h.words_tag hv'))
    refine ⟨⟨x, v, Arena.fieldAddr_eq hhead, hx, hs, hv⟩,
      ⟨y, v', Arena.fieldAddr_eq htail, hy, hs', hv', ?_⟩⟩
    rw [← Value.isList_tag, ← Tag.word_inj hsame]
    exact ht

theorem fieldAddr_ref (hv : Rep ω (.ref i) addr) :
    ∃ x, r.arena.fieldAddr addr Cell.refReferent = .ok x ∧ Rep ω (s.cell i) x := by
  have htag := h.words_tag hv
  cases hv with
  | ref tag referent =>
    have hlt := h.lt_size referent
    obtain ⟨x, hw, hx⟩ := h.holds _ _ referent
    have hfield := Arena.field_of_tag htag rfl hlt (by decide) (by decide) hw
    exact ⟨x, Arena.fieldAddr_eq hfield, hx⟩

theorem arityOf_closure (hv : Rep ω (.closure id c) addr) :
    r.arena.field addr Cell.closureArity = .ok (c.arity : Int) ∧
      r.arena.arityOf addr = .ok c.arity := by
  have htag := h.words_tag hv
  cases hv with
  | closure tag arity code same unsited outer below env =>
    have hlt := h.lt_size outer
    have hfield := Arena.field_of_tag htag rfl hlt (by decide) (by decide)
      (h.holds _ _ arity)
    refine ⟨hfield, ?_⟩
    rw [Arena.arityOf, hfield]
    rfl

/-- The code of a closure is found, and the link to where it was made. -/
theorem functionOf_closure (hv : Rep ω (.closure id c) addr) :
    ∃ (f : Function) (link : Option Nat) (p k : Nat) (params : List Ident),
      r.arena.functionOf addr = .ok f ∧ f.body.unsited = c.body ∧
      ω[p]? = some (.code k f params) ∧ params.length = c.arity ∧
      r.arena.fieldLink addr Cell.closureLink = .ok link ∧ (∀ a, link = some a → a < addr) ∧
      EnvRep ω c.env link := by
  have htag := h.words_tag hv
  cases hv with
  | @closure _ _ k _ f params link tag arity code same unsited outer below env =>
    have hlt := h.lt_size outer
    obtain ⟨hw, hf, -, -⟩ := h.holds _ _ code
    have hcode := Arena.field_of_tag htag rfl hlt (by decide) (by decide) hw
    have hlink := Arena.field_of_tag htag rfl hlt (by decide) (by decide)
      (h.holds _ _ outer)
    refine ⟨f, link, _, k, params, ?_, unsited, code, same, Arena.fieldLink_eq hlink, below, env⟩
    rw [Arena.functionOf, hcode]
    simp only [Bind.bind, Except.bind, hf]
    rfl

/-! ## Environments -/

/-- How far an activation goes. -/
theorem cellEnd_frame (henv : EnvRep ω (frame :: env) (some addr)) :
    r.arena.words[addr]? = some Tag.activation.word ∧
      r.arena.cellEnd addr = .ok (addr + (Cell.activationSlots + frame.length)) ∧
      addr + (Cell.activationSlots + frame.length) ≤ r.arena.words.size := by
  cases henv with
  | cons tag link count slots =>
    obtain ⟨htag, -⟩ := h.holds _ _ tag
    have hcount := h.holds _ _ count
    have hend : addr + (Cell.activationSlots + frame.length) ≤ r.arena.words.size := by
      have hlt := h.lt_size count
      unfold Cell.activationCount at hlt
      unfold Cell.activationSlots
      -- the last slot is in range, or else the word that counts them is
      rcases Nat.eq_zero_or_pos frame.length with h0 | hpos
      · omega
      · have hlast := slots (frame.length - 1) _
          (List.getElem?_eq_getElem (by omega : frame.length - 1 < frame.length))
        have hlt' := h.lt_size hlast
        unfold Cell.activationSlots at hlt'
        omega
    exact ⟨htag, Arena.cellEnd_eq htag (Arena.cellSize_activation hcount) hend, hend⟩

theorem activationEnd_frame (henv : EnvRep ω (frame :: env) (some addr)) :
    r.arena.activationEnd addr = .ok (addr + (Cell.activationSlots + frame.length)) := by
  obtain ⟨htag, hend, -⟩ := h.cellEnd_frame henv
  simp only [Arena.activationEnd, Arena.tagWord, Arena.word_eq htag, bind, Except.bind, hend,
    if_true]

/-- The link of an activation leads to the environment around it. -/
theorem fieldLink_frame (henv : EnvRep ω (frame :: env) (some addr)) :
    ∃ outer, r.arena.fieldLink addr Cell.activationLink = .ok outer ∧
      (∀ a, outer = some a → a < addr) ∧ EnvRep ω env outer := by
  obtain ⟨-, hend, -⟩ := h.cellEnd_frame henv
  cases henv with
  | @cons _ _ _ outer _ _ tag link count slots named below rest =>
    have hfield := Arena.field_eq hend (by decide)
      (by unfold Cell.activationLink Cell.activationSlots; omega)
      (h.holds _ _ link)
    exact ⟨outer, Arena.fieldLink_eq hfield, below, rest⟩

/-- The slots of an activation are the words that stand for the slots of its frame. -/
theorem slots_frame (henv : EnvRep ω (frame :: env) (some addr)) :
    ∃ words, r.arena.slots addr = .ok words ∧ words.length = frame.length ∧
      ∀ w ∈ words, ∃ (i p : Nat) (late : Bool), ω[p]? = some (.slot i late) ∧
        r.arena.words[p]? = some w := by
  obtain ⟨-, -, hend⟩ := h.cellEnd_frame henv
  refine ⟨(r.arena.words.extract (addr + Cell.activationSlots)
    (addr + (Cell.activationSlots + frame.length))).toList, ?_, ?_, ?_⟩
  · simp only [Arena.slots, h.activationEnd_frame henv, bind, Except.bind, pure, Except.pure]
  · rw [Array.length_toList, Array.size_extract]
    omega
  · intro w hw
    obtain ⟨i, hi⟩ := List.mem_iff_getElem?.mp hw
    rw [Array.getElem?_toList, Array.getElem?_extract] at hi
    split at hi
    · rename_i hlt
      cases henv with
      | cons tag link count slots =>
        have hb : i < frame.length := by omega
        have hslot := slots i _ (List.getElem?_eq_getElem hb)
        exact ⟨_, _, _, hslot, hi⟩
    · cases hi

end Matches

namespace EnvRep

/-- Going outward by links is going outward in the environment. -/
theorem outward (h : Matches forms m ω r s) (d : Nat) {addr : Nat}
    (henv : EnvRep ω env (some addr)) :
    (env[d]? = none ∧ ArenaEval.outward r.arena d addr = .ok none) ∨
      ∃ frame rest addr', env[d]? = some frame ∧
        ArenaEval.outward r.arena d addr = .ok (some addr') ∧
        EnvRep ω (frame :: rest) (some addr') := by
  induction d generalizing env addr with
  | zero =>
    cases henv with
    | cons tag link count slots named below rest =>
      exact .inr ⟨_, _, addr, rfl, rfl, .cons tag link count slots named below rest⟩
  | succ d ih =>
    obtain ⟨frame, env, rfl⟩ : ∃ f e, env = f :: e := by
      cases henv
      exact ⟨_, _, rfl⟩
    obtain ⟨outer, hlink, -, hrest⟩ := h.fieldLink_frame henv
    simp only [ArenaEval.outward, hlink, bind, Except.bind, List.getElem?_cons_succ]
    cases outer with
    | none =>
      cases hrest
      exact .inl ⟨rfl, rfl⟩
    | some outer => exact ih hrest

/-- An address that leads to a binding leads to the word that stands for its slot, in an
activation that knows the name of the binding if the slot is filled late; an address that leads
nowhere leads nowhere in the arena. -/
theorem slotAt (h : Matches forms m ω r s) (henv : EnvRep ω env link) (x : Address) :
    (env.at? x = none ∧ ArenaEval.slotAt r.arena link x = .ok none) ∨
      ∃ (b : Binding) (frame : Nat) (w : Int) (p : Nat) (late : Bool), env.at? x = some b ∧
        ArenaEval.slotAt r.arena link x = .ok (some (frame, w)) ∧
        ω[p]? = some (.slot b.slot late) ∧ r.arena.words[p]? = some w ∧
        (late = true → ArenaEval.nameIn r.arena.code frame x = b.name) := by
  cases link with
  | none =>
    cases henv
    exact .inl ⟨rfl, rfl⟩
  | some addr =>
    rcases henv.outward h x.depth with ⟨hd, hout⟩ | ⟨frame, rest, addr', hd, hout, hframe⟩
    · refine .inl ⟨by rw [Env.at?, hd], ?_⟩
      simp only [ArenaEval.slotAt, hout, bind, Except.bind, pure, Except.pure]
    · have hslot : r.arena.slot? addr' x.offset =
          if x.offset < frame.length
            then .ok r.arena.words[addr' + Cell.activationSlots + x.offset]? else .ok none := by
        simp only [Arena.slot?, h.activationEnd_frame hframe, bind, Except.bind, pure,
          Except.pure]
        congr 1
        exact propext ⟨fun hlt => by omega, fun hlt => by omega⟩
      by_cases hlt : x.offset < frame.length
      · have hb := List.getElem?_eq_getElem hlt
        cases hframe with
        | @cons _ _ _ outer names late tag link count slots named below rest =>
          have hrole := slots _ _ hb
          have hw := Array.getElem?_eq_getElem (h.lt_size hrole)
          obtain ⟨-, hnames⟩ := h.holds _ _ tag
          refine .inr ⟨frame[x.offset], addr', _, _, late, by rw [Env.at?, hd]; exact hb, ?_, hrole,
            hw, fun hlate => ?_⟩
          · rw [if_pos hlt, hw] at hslot
            simp only [ArenaEval.slotAt, hout, bind, Except.bind, hslot, pure, Except.pure]
          · have hname := congrArg (fun l => l[x.offset]?) (named hlate)
            simp only [List.getElem?_map, hb, Option.map_some] at hname
            obtain ⟨id, hid, hname⟩ := Option.map_eq_some_iff.mp hname.symm
            rw [ArenaEval.nameIn, hnames, Option.getD_some, hid]
            exact hname
      · refine .inl ⟨?_, ?_⟩
        · rw [Env.at?, hd]
          exact List.getElem?_eq_none (by omega)
        · rw [if_neg hlt] at hslot
          simp only [ArenaEval.slotAt, hout, bind, Except.bind, hslot, pure, Except.pure]

end EnvRep

end

end Mapling
