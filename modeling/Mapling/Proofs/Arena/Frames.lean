import Mapling.Proofs.Arena.Account
import Mapling.Proofs.Arena.History

/-! # The frames of an activation

What any calls of a decoder, one after another, leave behind. One activation may have several
frames: decoding it decodes the activations around it first, and if these lead to a closure of the
activation, that closure gets another frame. But frames of different activations are different;
the frames of one activation differ in nothing but the identity of pairs; and an activation that is
known when a call begins gets no further frame. -/

namespace Mapling

/-! ## Sequences of calls -/

/-- The environments that anybody can have got hold of, by the activation they were decoded from:
those that are known, which are the ones returned; those captured in closures; and those around
one of them. -/
inductive Decoder.From (a : Arena) (d : Decoder) : Option Nat → Env → Prop
  | known {addr : Nat} {env : Env} (h : d.envs[addr]? = some env) : From a d (some addr) env
  | captured {addr i : Nat} {c : Closure Address Site} {link : Option Nat}
      (h : d.shared[addr]? = some (.closure i c))
      (hlink : a.fieldLink addr Cell.closureLink = .ok link) : From a d link c.env
  | around {addr : Nat} {f : Frame} {outer : Env} {link : Option Nat}
      (h : From a d (some addr) (f :: outer))
      (hlink : a.fieldLink addr Cell.activationLink = .ok link) : From a d link outer

inductive Decoder.Call (a : Arena) (d : Decoder) : Bool → Decoder → Prop
  | value {n addr : Nat} {o : Except ArenaError CellValue} {d' : Decoder}
      (run : outcome (Decode.value a n addr) d = some (o, d')) : Call a d o.isOk d'
  | frame {n : Nat} {link : Option Nat} {o : Except ArenaError Env} {d' : Decoder}
      (run : outcome (Decode.frame a n link) d = some (o, d')) : Call a d o.isOk d'

/-- The states of a decoder after any calls, and whether all of them succeeded. -/
inductive Decoding (a : Arena) : Bool → Decoder → Prop
  | start : Decoding a true .empty
  | call {clean ok : Bool} {d d' : Decoder} (before : Decoding a clean d) (call : d.Call a ok d') :
      Decoding a (clean && ok) d'

section

variable {a : Arena} {made : List FrameRecord} {slots : List Nat} {refs : Set Nat}
  {d d' : Decoder} {clean ok : Bool} {link : Option Nat} {env : Env}

theorem Accounted.envOf (hd : Accounted a made slots refs d) (h : d.From a link env) :
    EnvOf made link env := by
  induction h with
  | known h => exact hd.known _ _ h
  | captured h hlink =>
    obtain ⟨link', hlink', henv⟩ := hd.captured _ _ _ h
    rw [hlink] at hlink'
    cases hlink'
    exact henv
  | around h hlink ih =>
    obtain ⟨e, he, rfl, henv⟩ := ih
    cases henv
    obtain ⟨link', hlink', houter⟩ := hd.outer e he
    rw [hlink] at hlink'
    cases hlink'
    exact houter

theorem Accounts.call {α : Type} {x : Decode α} {Q : Decoder → α → Prop}
    (h : Accounts a made d slots refs d x Q) {o : Except ArenaError α}
    (ho : outcome x d = some (o, d')) : ∃ made' slots' refs', Advance a d made d' made' ∧
      Accounted a made' slots' refs' d' ∧ (∀ p ∈ refs', p ∈ refs ∨ ¬ Healthy a p) ∧
      (o.isOk = true → slots' = slots ∧ refs' = refs) := by
  have hrest := h o d' ho
  cases o with
  | error e =>
    obtain ⟨made', slots', refs', hadv, hd', hless⟩ := hrest
    exact ⟨made', slots', refs', hadv, hd', hless, nofun⟩
  | ok v =>
    obtain ⟨made', hadv, hd', -⟩ := hrest
    exact ⟨made', slots, refs, hadv, hd', fun _ => .inl, fun _ => ⟨rfl, rfl⟩⟩

theorem Accounted.call (hd : Accounted a made slots refs d) (h : d.Call a ok d') :
    ∃ made' slots' refs', Advance a d made d' made' ∧ Accounted a made' slots' refs' d' ∧
      (∀ p ∈ refs', p ∈ refs ∨ ¬ Healthy a p) ∧ (ok = true → slots' = slots ∧ refs' = refs) := by
  cases h with
  | value run => exact ((accountable a _).value made slots refs d _ hd).call run
  | frame run => exact ((accountable a _).frame made slots refs d _ hd).call run

/-- The references without content are not healthy, and if all calls succeeded nothing is
pending. -/
theorem Decoding.accounted (h : Decoding a clean d) :
    ∃ made slots refs, Accounted a made slots refs d ∧ (∀ p ∈ refs, ¬ Healthy a p) ∧
      (clean = true → slots = [] ∧ refs = ∅) := by
  induction h with
  | start => exact ⟨[], [], ∅, accounted_empty a, nofun, fun _ => ⟨rfl, rfl⟩⟩
  | @call clean ok d d' before call ih =>
    obtain ⟨made, slots, refs, hd, hsick, hclean⟩ := ih
    obtain ⟨made', slots', refs', -, hd', hless, hok⟩ := hd.call call
    refine ⟨made', slots', refs', hd', fun p hp => (hless p hp).elim (hsick p) id, fun hboth => ?_⟩
    obtain ⟨hc, ho⟩ := Bool.and_eq_true_iff.mp hboth
    rw [(hok ho).1, (hok ho).2]
    exact hclean hc

/-- An activation that is known gets no further environment. -/
theorem Advance.from {made' : List FrameRecord} {slots' : List Nat} {refs' : Set Nat}
    (h : Advance a d made d' made') (hd : Accounted a made slots refs d)
    (hd' : Accounted a made' slots' refs' d') (hfrom : d'.From a link env) (addr : Nat)
    (hlink : link = some addr) (hknown : d.envs[addr]?.isSome) : d.From a link env := by
  obtain ⟨env0, henv0⟩ := Option.isSome_iff_exists.mp hknown
  -- along the way by which the environment is reached after the call
  induction hfrom generalizing addr env0 with
  | known hk =>
    cases hlink
    rw [h.envs _ _ henv0] at hk
    cases hk
    exact .known henv0
  | captured hc hl =>
    subst hlink
    rcases h.captured _ _ _ hc with hold | hnew
    · exact .captured hold hl
    · rw [hnew addr env0 hl henv0]
      exact .known henv0
  | @around p f outer link hp hl ih =>
    subst hlink
    rcases hp0 : d.envs[p]? with _ | env1
    · -- the activation inside was not known, so its frame is new
      obtain ⟨e, he, rfl, henv⟩ := hd'.envOf hp
      cases henv
      rcases h.new e he with hold | ⟨-, houter⟩
      · have hmet := hd.met e hold
        rw [hp0] at hmet
        cases hmet
      · rw [houter addr env0 hl henv0]
        exact .known henv0
    · exact .around (ih p rfl (by rw [hp0]; rfl) env1 hp0) hl

def Frame.Apart (f f' : Frame) : Prop := ∀ b ∈ f, ∀ b' ∈ f', b.slot ≠ b'.slot

/-- Slot by slot, two frames have the same names, and values that are copies of each other; a slot
of one may be empty where that of the other is not only if a call has failed. -/
structure Frame.Agree (s : Store Address Site) (clean : Bool) (f f' : Frame) : Prop where
  names : f.map Binding.name = f'.map Binding.name
  copies : ∀ (i : Nat) b b' v v', f[i]? = some b → f'[i]? = some b' →
    s.slot b.slot = .ready v → s.slot b'.slot = .ready v' → CopyOf s v v'
  filled : clean = true → ∀ (i : Nat) b b', f[i]? = some b → f'[i]? = some b' →
    s.slot b.slot = .uninit ∧ s.slot b'.slot = .uninit ∨
      ∃ v v', s.slot b.slot = .ready v ∧ s.slot b'.slot = .ready v'

theorem Accounted.apart (hd : Accounted a made slots refs d) {e e' : FrameRecord} (he : e ∈ made)
    (he' : e' ∈ made) (hne : e ≠ e') : Frame.Apart e.frame e'.frame := by
  intro b hb b' hb' hslot
  obtain ⟨i, hi⟩ := List.mem_iff_getElem?.mp hb
  obtain ⟨j, hj⟩ := List.mem_iff_getElem?.mp hb'
  exact hne (hd.once e he e' he' i j b b' hi hj hslot).1

/-- Frames made for one activation agree. -/
theorem Accounted.agree (hd : Accounted a made slots refs d) (hclean : clean = true → slots = [])
    {e e' : FrameRecord} (he : e ∈ made) (he' : e' ∈ made) (haddr : e.addr = e'.addr) :
    Frame.Agree d.store clean e.frame e'.frame := by
  obtain ⟨words, hwords, hnames, hholds⟩ := hd.frames e he
  obtain ⟨words', hwords', hnames', hholds'⟩ := hd.frames e' he'
  rw [haddr, hwords'] at hwords
  cases hwords
  -- a slot of a frame has a word in the activation
  have hword : ∀ {i : Nat} {b : Binding}, e.frame[i]? = some b → ∃ w, words[i]? = some w := by
    intro i b hb
    obtain ⟨hlt, -⟩ := List.getElem?_eq_some_iff.mp hb
    have hlength := congrArg List.length hnames
    simp only [List.length_map, Decode.slotNames, List.length_range] at hlength
    exact ⟨_, List.getElem?_eq_getElem (hlength ▸ hlt)⟩
  refine ⟨by rw [hnames, hnames', haddr], fun i b b' v v' hb hb' hv hv' => ?_,
    fun hc i b b' hb hb' => ?_⟩
  · obtain ⟨w, hw⟩ := hword hb
    rcases hholds i b w hb hw with ⟨huninit, -⟩ | ⟨x, y, hx, hy, hreads⟩
    · rw [huninit] at hv
      cases hv
    · rcases hholds' i b' w hb' hw with ⟨huninit', -⟩ | ⟨x', y', hx', hy', hreads'⟩
      · rw [huninit'] at hv'
        cases hv'
      · rw [hv] at hy
        rw [hv'] at hy'
        rw [hx] at hx'
        cases hy
        cases hy'
        cases hx'
        exact hreads.copyOf hreads'
  · obtain ⟨w, hw⟩ := hword hb
    cases hclean hc
    -- without pending slots, both are empty or both are filled, as the word says
    rcases hholds i b w hb hw with ⟨huninit, hempty | hmem⟩ | ⟨x, y, hx, hy, -⟩
    · rcases hholds' i b' w hb' hw with ⟨huninit', -⟩ | ⟨x', y', hx', -, -⟩
      · exact .inl ⟨huninit, huninit'⟩
      · rw [hempty] at hx'
        cases hx'
    · cases hmem
    · rcases hholds' i b' w hb' hw with ⟨-, hempty' | hmem'⟩ | ⟨x', y', -, hy', -⟩
      · rw [hempty'] at hx
        cases hx
      · cases hmem'
      · exact .inr ⟨y, y', hy, hy'⟩

/-- After any calls of a decoder, on any arena: the frames of different activations are different
frames; two environments of the same activation are the same, or their frames are different ones
that agree; what a call returns is known; and an activation that is known keeps its environment
through every further call, and gets no other. So one activation has several frames only if they
were made during the call that met it first. -/
theorem frames_of_decoding (h : Decoding a clean d) :
    (∀ addr addr' f f' outer outer', d.From a (some addr) (f :: outer) →
      d.From a (some addr') (f' :: outer') → addr ≠ addr' → Frame.Apart f f') ∧
    (∀ addr f f' outer outer', d.From a (some addr) (f :: outer) →
      d.From a (some addr) (f' :: outer') →
      (f :: outer = f' :: outer' ∨ Frame.Apart f f') ∧ Frame.Agree d.store clean f f') ∧
    (∀ n addr env d', outcome (Decode.frame a n (some addr)) d = some (.ok env, d') →
      d'.envs[addr]? = some env) ∧
    ∀ addr env, d.envs[addr]? = some env → ∀ ok d', d.Call a ok d' → d'.envs[addr]? = some env ∧
      ∀ env', d'.From a (some addr) env' → d.From a (some addr) env' := by
  obtain ⟨made, slots, refs, hd, -, hclean⟩ := h.accounted
  refine ⟨fun addr addr' f f' outer outer' hf hf' hne => ?_,
    fun addr f f' outer outer' hf hf' => ?_, fun n addr env d' ho => ?_,
    fun addr env hknown ok d' hcall => ?_⟩
  · obtain ⟨e, he, rfl, henv⟩ := hd.envOf hf
    obtain ⟨e', he', rfl, henv'⟩ := hd.envOf hf'
    cases henv
    cases henv'
    exact hd.apart he he' (fun heq => hne (congrArg FrameRecord.addr heq))
  · obtain ⟨e, he, haddr, henv⟩ := hd.envOf hf
    obtain ⟨e', he', haddr', henv'⟩ := hd.envOf hf'
    cases henv
    cases henv'
    refine ⟨?_, hd.agree (fun hc => (hclean hc).1) he he' (haddr.trans haddr'.symm)⟩
    by_cases heq : e = e'
    · exact .inl (heq ▸ rfl)
    · exact .inr (hd.apart he he' heq)
  · obtain ⟨made', -, -, hknown⟩ := (accountable a n).frame made slots refs d (some addr) hd _ _ ho
    exact hknown
  · obtain ⟨made', slots', refs', hadv, hd', -⟩ := hd.call hcall
    exact ⟨hadv.envs addr env hknown, fun env' hfrom =>
      hadv.from hd hd' hfrom addr rfl (by rw [hknown]; rfl)⟩

end

/-! ## An activation with two frames -/

/-- `let r := ref 0; in let y := 5; in { r <- map to y; map to y }`: two closures of one activation,
and a reference to one of them in the activation around it. -/
def returnedAndKept : AddressedExpr :=
  let read : AddressedExpr := .map .synthetic [] ⟨0⟩ (.var .synthetic ⟨1, 0⟩)
  .letIn .synthetic .plain [(.synthetic "r", .unary .synthetic .ref (.int .synthetic 0))] ⟨1⟩
    (.letIn .synthetic .plain [(.synthetic "y", .int .synthetic 5)] ⟨1⟩
      (.block .synthetic [.binary .synthetic .assign (.var .synthetic ⟨1, 0⟩) read, read]))

def Value.env? {V L : Type} : Value V L → Option Env
  | .closure _ c => some c.env
  | _ => none

theorem Decoder.From.of_env? {a : Arena} {d : Decoder} {addr : Nat} {link : Option Nat} {env : Env}
    (h : d.shared[addr]?.bind Value.env? = some env)
    (hlink : a.fieldLink addr Cell.closureLink = .ok link) : d.From a link env := by
  obtain ⟨v, hv, henv⟩ := Option.bind_eq_some_iff.mp h
  cases v with
  | closure i c =>
    cases henv
    exact .captured hv hlink
  | _ => cases henv

/-- Decoding the result decodes the activation around that of `y` first, and there the other
closure, which needs a frame for `y`; afterwards the result gets one of its own. -/
theorem decoding_returnedAndKept : ∃ run d,
    (Run.start (.withCapacity 99)).program 9 9 returnedAndKept = some (.ok 34, run) ∧
      Decoding run.arena true d ∧
      d.From run.arena (some 26) [[⟨"y", 1⟩], [⟨"r", 0⟩]] ∧
      d.From run.arena (some 26) [[⟨"y", 2⟩], [⟨"r", 0⟩]] := by
  have hrun : ((Run.start (.withCapacity 99)).program 9 9 returnedAndKept).map (fun p =>
      (p.1, p.2.arena.fieldLink 30 Cell.closureLink, p.2.arena.fieldLink 34 Cell.closureLink)) =
      some (.ok 34, .ok (some 26), .ok (some 26)) := by cbv
  have hdecode : ((Run.start (.withCapacity 99)).program 9 9 returnedAndKept).bind (fun p =>
      (outcome (Decode.value p.2.arena 12 34) .empty).map (fun q =>
        (q.1.isOk, q.2.shared[30]?.bind Value.env?, q.2.shared[34]?.bind Value.env?))) =
      some (true, some [[⟨"y", 1⟩], [⟨"r", 0⟩]], some [[⟨"y", 2⟩], [⟨"r", 0⟩]]) := by cbv
  obtain ⟨⟨o, run⟩, hprogram, heq⟩ := Option.map_eq_some_iff.mp hrun
  obtain ⟨rfl, hkept, hreturned⟩ : o = .ok 34 ∧ _ ∧ _ := by simpa using heq
  rw [hprogram, Option.bind_some] at hdecode
  obtain ⟨⟨o, d⟩, hvalue, heq⟩ := Option.map_eq_some_iff.mp hdecode
  obtain ⟨hok, hfirst, hsecond⟩ : o.isOk = true ∧ _ ∧ _ := by simpa using heq
  exact ⟨run, d, hprogram, hok ▸ .call .start (.value hvalue), .of_env? hfirst hkept,
    .of_env? hsecond hreturned⟩

/-- Two closures of one activation have different frames. -/
theorem two_frames_of_activation : ∃ run d f f' outer, Reached run ∧ Decoding run.arena true d ∧
    d.From run.arena (some 26) (f :: outer) ∧ d.From run.arena (some 26) (f' :: outer) ∧
    f ≠ f' := by
  obtain ⟨run, d, hprogram, hdecoding, hfirst, hsecond⟩ := decoding_returnedAndKept
  exact ⟨run, d, _, _, _, .program (.start 99) hprogram, hdecoding, hfirst, hsecond, by decide⟩

/-- The two frames agree. -/
theorem frames_of_decoding_returnedAndKept : ∃ (run : Run) (d : Decoder),
    Decoding run.arena true d ∧
    d.From run.arena (some 26) [[⟨"y", 1⟩], [⟨"r", 0⟩]] ∧
    d.From run.arena (some 26) [[⟨"y", 2⟩], [⟨"r", 0⟩]] ∧
    Frame.Agree d.store true [⟨"y", 1⟩] [⟨"y", 2⟩] := by
  obtain ⟨run, d, -, hdecoding, hfirst, hsecond⟩ := decoding_returnedAndKept
  have hagree := ((frames_of_decoding hdecoding).2.1 26 _ _ _ _ hfirst hsecond).2
  exact ⟨run, d, hdecoding, hfirst, hsecond, hagree⟩

end Mapling
