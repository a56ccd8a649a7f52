import Mapling.Proofs.Arena.Congruence
import Mapling.Proofs.Arena.Refinement
import Mathlib

/-! # The limits of an arena are only limits

Two numbers limit a run in an arena: for how many words there is room, which is asked whenever a
cell is made, and how deep calls may nest, which is asked after the activation of a call has been
made. Either of them can only end a run, with an error that nothing catches; no cell, no index and
no message depends on them.

So a run with less and a run with more of both go in lock step until the first one reaches a limit
(`Widens`). Their states are the same but for the room (`Run.widened`), and the messages of errors,
which decode cells, do not see the room either (`Decode.widened`). -/

namespace Mapling

def ArenaError.isLimit : ArenaError → Bool
  | .exhausted _ | .eval (.depthExceeded _) => true
  | _ => false

/-! ## Arenas with more room -/

/-- The arena with room for at least `c` words. -/
def Arena.widened (c : Nat) (a : Arena) : Arena := ⟨a.words, max a.capacity c, a.code⟩

def Run.widened (c : Nat) (r : Run) : Run :=
  ⟨r.arena.widened c, r.depth, r.functions, r.letNames⟩

/-- Decoding does not ask for the room. -/
theorem Decode.widened (c : Nat) (a : Arena) (n : Nat) :
    (∀ addr, value (a.widened c) n addr = value a n addr) ∧
    (∀ addr, reference (a.widened c) n addr = reference a n addr) ∧
    (∀ addr, closure (a.widened c) n addr = closure a n addr) ∧
    (∀ link, frame (a.widened c) n link = frame a n link) ∧
    ∀ bs ws, fill (a.widened c) n bs ws = fill a n bs ws := by
  induction n with
  | zero =>
    refine ⟨fun addr => ?_, fun addr => ?_, fun addr => ?_, fun link => ?_, fun bs ws => ?_⟩
    · rw [value, value]
    · rw [reference, reference]
    · rw [closure, closure]
    · rw [frame, frame]
    · rw [fill, fill]
  | succ n ih =>
    obtain ⟨ihv, ihr, ihc, ihf, ihl⟩ := ih
    refine ⟨fun addr => ?_, fun addr => ?_, fun addr => ?_, fun link => ?_, fun bs ws => ?_⟩
    · simp only [value, ihv, ihr, ihc]
      rfl
    · simp only [reference, ihv]
      rfl
    · simp only [closure, ihf]
      rfl
    · cases link with
      | none => rw [frame, frame]
      | some addr =>
        simp only [frame, ihf, ihl]
        rfl
    · cases bs with
      | nil => cases ws <;> rfl
      | cons b bs =>
        cases ws with
        | nil => rfl
        | cons w ws => simp only [fill, ihv, ihl]

theorem Arena.decode_widened (c : Nat) (a : Arena) (n addr : Nat) :
    (a.widened c).decode n addr = a.decode n addr := by
  rw [decode, decode, (Decode.widened c a n).1]

/-! ## Runs in lock step -/

/-- What the run with less and the run with more give. They give the same; but if the first one
reaches a limit, the second one may do anything. -/
inductive Widened {α : Type} (c : Nat) : Option (Except ArenaError α × Run) →
    Option (Except ArenaError α × Run) → Prop
  | none : Widened c none none
  | same (o : Except ArenaError α) (r : Run) : Widened c (some (o, r)) (some (o, r.widened c))
  | reached {e : ArenaError} (limit : e.isLimit = true) (r : Run)
      (o : Option (Except ArenaError α × Run)) : Widened c (some (.error e, r)) o

/-- `y` does with more room what `x` does, unless `x` reaches a limit. -/
def Widens {α : Type} (c : Nat) (x y : ArenaEval α) : Prop :=
  ∀ r, Widened c (outcome x r) (outcome y (r.widened c))

namespace Widens

variable {α β : Type} {c n : Nat}

theorem pure (a : α) : Widens c (pure a) (pure a) := fun r => .same (.ok a) r

theorem throw (e : ArenaError) : Widens c (throw e : ArenaEval α) (throw e) :=
  fun r => .same (.error e) r

theorem exhausted : Widens c (ArenaEval.exhausted : ArenaEval α) ArenaEval.exhausted :=
  fun _ => .none

theorem bind {x y : ArenaEval α} {f g : α → ArenaEval β} (hx : Widens c x y)
    (hf : ∀ a, Widens c (f a) (g a)) : Widens c (x >>= f) (y >>= g) := by
  intro r
  have h := hx r
  rw [outcome_bind, outcome_bind]
  generalize outcome x r = o, outcome y (r.widened c) = o' at h
  cases h with
  | none => exact .none
  | same o r =>
    cases o with
    | error e => exact .same _ r
    | ok a => exact hf a r
  | reached limit r o => exact .reached limit r _

/-- What depends on the state only by what the two states have in common. -/
theorem bind_get {f g : Run → ArenaEval α} (hf : ∀ r, Widens c (f r) (g (r.widened c))) :
    Widens c (get >>= f) (get >>= g) := fun r => hf r r

theorem modify {f : Run → Run} (hf : ∀ r, f (r.widened c) = (f r).widened c) :
    Widens c (modify f : ArenaEval PUnit) (modify f) := by
  intro r
  rw [outcome_modify, outcome_modify, hf]
  exact .same _ _

theorem modifyGet {f : Run → α × Run}
    (hf : ∀ r, f (r.widened c) = ((f r).1, (f r).2.widened c)) :
    Widens c (modifyGet f : ArenaEval α) (modifyGet f) := by
  intro r
  rw [outcome_modifyGet, outcome_modifyGet, hf]
  exact .same _ _

theorem ofExcept (o : Except ArenaError α) :
    Widens c (ArenaEval.ofExcept o) (ArenaEval.ofExcept o) := by
  cases o with
  | ok a => exact pure a
  | error e => exact throw e

/-! ## The arena -/

theorem read {f : Arena → Except ArenaError α} (hf : Arena.Overlooks f) :
    Widens c (ArenaEval.read f) (ArenaEval.read f) := by
  refine bind_get (fun r => ?_)
  rw [Run.widened, show f (r.arena.widened c) = f r.arena from hf _ _ _ _]
  exact ofExcept _

/-- A cell for which there is room gets the same address where there is more room. -/
theorem alloc (cell : List Int) : Widens c (ArenaEval.alloc cell) (ArenaEval.alloc cell) := by
  intro r
  have hout : ∀ r, outcome (ArenaEval.alloc cell) r =
      some (r.onArena (fun a => a.alloc cell)) := fun _ => rfl
  rw [hout, hout]
  by_cases hroom : cell.length ≤ r.arena.remaining
  · have hroom' : cell.length ≤ (r.arena.widened c).remaining := by
      simp only [Arena.remaining, Arena.used, Arena.widened] at hroom ⊢
      omega
    have halloc : (r.arena.widened c).alloc cell = ((r.arena.alloc cell).1,
        (r.arena.alloc cell).2.widened c) := by
      rw [Arena.alloc, if_pos hroom', Arena.alloc, if_pos hroom]
      rfl
    simp only [Run.onArena, Run.widened, halloc]
    exact .same _ _
  · simp only [Run.onArena, Arena.alloc, if_neg hroom]
    exact .reached rfl r _

theorem setField (addr i : Nat) (w : Int) :
    Widens c (ArenaEval.write (fun a => a.setField addr i w))
      (ArenaEval.write (fun a => a.setField addr i w)) := by
  intro r
  have hfield : (r.arena.widened c).field addr i = r.arena.field addr i := rfl
  have hout : ∀ r, outcome (ArenaEval.write (fun a => a.setField addr i w)) r =
      some (r.onArena (fun a => a.setField addr i w)) := fun _ => rfl
  rw [hout, hout]
  simp only [Run.onArena, Run.widened, Arena.setField, hfield]
  cases r.arena.field addr i with
  | error e => exact .same _ _
  | ok old =>
    have hused : (r.arena.widened c).used = r.arena.used := rfl
    simp only [Arena.setWord, hused]
    split <;> exact .same _ _

/-- Messages do not tell how much room there is. -/
theorem shown (n addr : Nat) : Widens c (ArenaEval.shown n addr) (ArenaEval.shown n addr) := by
  refine bind_get (fun r => ?_)
  rw [Run.widened, Arena.decode_widened]
  rcases r.arena.decode n addr with _ | ⟨_ | v, d⟩
  · exact exhausted
  · exact pure _
  · dsimp only
    cases v.text d.store n with
    | none => exact exhausted
    | some t => exact pure t

theorem allocFrame (outer : Option Nat) (slots : List Int) (names : Nat) :
    Widens c (ArenaEval.allocFrame outer slots names) (ArenaEval.allocFrame outer slots names) :=
  bind (alloc _) (fun _ => bind (modify (fun _ => rfl)) (fun _ => pure _))

theorem codeOf (params : List Ident) (site : Site) (body : SitedExpr) :
    Widens c (MonadState.modifyGet (fun r => r.codeOf params site body) : ArenaEval Nat)
      (MonadState.modifyGet (fun r => r.codeOf params site body)) := by
  refine modifyGet (fun r => ?_)
  have hsame : (r.widened c).functions = r.functions := rfl
  simp only [Run.codeOf, hsame]
  cases r.functions[site.number]? <;> rfl

theorem namesOf (site : Site) (names : List Ident) :
    Widens c (MonadState.modifyGet (fun r => r.namesOf site names) : ArenaEval Nat)
      (MonadState.modifyGet (fun r => r.namesOf site names)) := by
  refine modifyGet (fun r => ?_)
  have hsame : (r.widened c).letNames = r.letNames := rfl
  simp only [Run.namesOf, hsame]
  generalize (if names.isEmpty then none else some site.number) = key
  cases r.letNames[key]? <;> rfl

/-- A level that the lower limit allows, the higher one allows as well. -/
theorem nested {limit limit' : Nat} (hlimit : limit ≤ limit') {x y : ArenaEval Nat}
    (hx : Widens c x y) : Widens c (ArenaEval.nested limit x) (ArenaEval.nested limit' y) := by
  have henter : Widens c (ArenaEval.enter limit) (ArenaEval.enter limit') := by
    refine bind_get (fun r => ?_)
    have hdepth : (r.widened c).depth = r.depth := rfl
    rw [hdepth]
    by_cases hlower : r.depth < limit
    · rw [if_pos hlower, if_pos (Nat.lt_of_lt_of_le hlower hlimit)]
      exact modify (fun _ => rfl)
    · rw [if_neg hlower]
      exact fun r => .reached rfl r _
  refine bind henter (fun _ r => ?_)
  have h := hx r
  rw [Follows.outcome_ascend, Follows.outcome_ascend]
  generalize outcome x r = o, outcome y (r.widened c) = o' at h
  cases h with
  | none => exact .none
  | same o r => exact .same o _
  | reached limit r o => exact .reached limit _ _

/-- Running in an arena respects that more room and a higher limit change nothing. -/
def congruence (c : Nat) {limit limit' : Nat} (hlimit : limit ≤ limit') :
    ArenaCongruence limit limit' where
  Rel := Widens c
  pure := pure
  throw := throw
  exhausted := exhausted
  bind := bind
  read := read
  shown := shown
  name _ _ := bind_get (fun _ => pure _)
  alloc := alloc
  setField := setField
  codeOf := codeOf
  frame site names outer slots _ _ hf := bind (namesOf site names) (fun i =>
    bind (allocFrame outer slots i) hf)
  call _ _ _ _ _ hx hf :=
    bind (read (fun _ _ _ _ => rfl)) (fun function => bind (read (fun _ _ _ _ => rfl)) (fun outer =>
      bind hx (fun slots => bind (allocFrame outer slots function.names) (fun frame =>
        nested hlimit (hf (some frame) function.body)))))

end Widens

/-! ## Programs -/

/-- From any state, a program that does not reach a limit does the same under higher limits. -/
theorem Run.program_widened {r r' : Run} {limit limit' n : Nat} {e : AddressedExpr}
    {o : Except ArenaError Nat} (c : Nat) (hlimit : limit ≤ limit')
    (hrun : r.program limit n e = some (o, r'))
    (ho : ∀ err, o = .error err → err.isLimit = false) :
    (r.widened c).program limit' n e = some (o, r'.widened c) := by
  have hprepare : (r.widened c).prepare e = ((r.prepare e).1, (r.prepare e).2.widened c) := rfl
  have h : Widened c _ _ :=
    (Widens.congruence c hlimit).eval n none (r.prepare e).1 (r.prepare e).2
  have hrun' : outcome (ArenaEval.eval limit n none (r.prepare e).1) (r.prepare e).2 =
      some (o, r') := hrun
  rw [hrun'] at h
  have hgoal : (r.widened c).program limit' n e = outcome
      (ArenaEval.eval limit' n none (r.prepare e).1) ((r.prepare e).2.widened c) := by
    rw [Run.program, hprepare]
    rfl
  rw [hgoal]
  generalize outcome (ArenaEval.eval limit' n none (r.prepare e).1) ((r.prepare e).2.widened c) =
    o' at h
  cases h with
  | same => rfl
  | reached limit => exact absurd (ho _ rfl) (by simp [limit])

/-- If running a program in a fresh arena ends, and not because there is no room or calls nest too
deep, it ends the same way in every fresh arena with at least as much room and under every limit
that is at least as high, and leaves the same words and the same code. -/
theorem program_of_limits_le {c c' d d' n : Nat} {e : AddressedExpr} {o : Except ArenaError Nat}
    {r : Run} (hc : c ≤ c') (hd : d ≤ d')
    (hrun : (Run.start (.withCapacity c)).program d n e = some (o, r))
    (hroom : ∀ capacity, o ≠ .error (.exhausted capacity))
    (hdepth : ∀ limit, o ≠ .error (.eval (.depthExceeded limit))) :
    ∃ r', (Run.start (.withCapacity c')).program d' n e = some (o, r') ∧
      r'.arena.words = r.arena.words ∧ r'.arena.code = r.arena.code := by
  have hstart : (Run.start (.withCapacity c)).widened (max c' Cell.heapStart) =
      Run.start (.withCapacity c') := by
    have hcapacity : max (max c Cell.heapStart) (max c' Cell.heapStart) =
        max c' Cell.heapStart := by omega
    rw [Run.start, Run.widened, Arena.widened, Arena.withCapacity, hcapacity]
    rfl
  have hnot : ∀ err, o = .error err → err.isLimit = false := by
    intro err herr
    rw [herr] at hroom hdepth
    cases err with
    | exhausted capacity => exact absurd rfl (hroom capacity)
    | eval err =>
        cases err with
        | depthExceeded limit => exact absurd rfl (hdepth limit)
        | _ => rfl
    | _ => rfl
  refine ⟨r.widened (max c' Cell.heapStart), ?_, rfl, rfl⟩
  rw [← hstart]
  exact Run.program_widened _ hd hrun hnot

/-- `let r := ref 0; in { r <- map x to x; (!r)(r) + 1 }`, which makes a reference to a function,
calls the function, and fails with a message that shows the reference. -/
def calledByReference : AddressedExpr :=
  let r : AddressedExpr := .var .synthetic ⟨0, 0⟩
  .letIn .synthetic .plain [(.synthetic "r", .unary .synthetic .ref (.int .synthetic 0))] ⟨1⟩
    (.block .synthetic
      [.binary .synthetic .assign r (.map .synthetic [.synthetic "x"] ⟨1⟩ r),
       .binary .synthetic .add (.app .synthetic (.unary .synthetic .deref r) [r])
        (.int .synthetic 1)])

/-- The program needs 34 words and one level of depth, and more of both changes nothing. -/
theorem program_calledByReference :
    ((Run.start (.withCapacity 33)).program 1 20 calledByReference).map Prod.fst =
        some (.error (.exhausted 33)) ∧
      ((Run.start (.withCapacity 34)).program 0 20 calledByReference).map Prod.fst =
        some (.error (.eval (.depthExceeded 0))) ∧
      ∃ r r', (Run.start (.withCapacity 34)).program 1 20 calledByReference =
          some (.error (.eval (.typeMismatch "+" "(ref <closure/1>)")), r) ∧
        (Run.start (.withCapacity 1000)).program 50 20 calledByReference =
          some (.error (.eval (.typeMismatch "+" "(ref <closure/1>)")), r') ∧
        r'.arena.words = r.arena.words ∧ r'.arena.code = r.arena.code := by
  have hends : ((Run.start (.withCapacity 34)).program 1 20 calledByReference).map Prod.fst =
      some (.error (.eval (.typeMismatch "+" "(ref <closure/1>)"))) := by cbv
  obtain ⟨⟨_, r⟩, hrun, rfl⟩ := Option.map_eq_some_iff.mp hends
  refine ⟨by cbv, by cbv, r, ?_⟩
  obtain ⟨r', hrun', hsame⟩ := program_of_limits_le (show 34 ≤ 1000 by decide)
    (show 1 ≤ 50 by decide) hrun (fun _ h => by cases h) (fun _ h => by cases h)
  exact ⟨r', hrun, hrun', hsame⟩

end Mapling
