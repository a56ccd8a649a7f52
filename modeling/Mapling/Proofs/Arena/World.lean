import Mapling.Arena.Run
import Mapling.Proofs.Arena.Sites
import Mapling.Proofs.Eval.Eager

/-! # What the words of an arena stand for

A run in an arena and a run of the evaluator build the same values in different ways: one appends
words, the other names slots, cells and closures by numbers. A `World` says for every word of the
arena what it stands for on the other side. A word keeps its role for good, also when the word
itself changes, so a world only ever grows at its end, and whatever is known about a value in one
world is known in every later one (`Rep.mono`).

`Matches` is the invariant: every word plays its role, and no slot, cell or closure is played
twice. -/

namespace Mapling

variable {V L : Type} {t t' : CodeTable} {limit p : Nat} {forms : List (Nat × Form)}

/-- What a word of an arena stands for. -/
inductive Role where
  /-- This very word. -/
  | fixed (w : Int)
  /-- The tag of the closure with this number. -/
  | closure (id : Nat)
  /-- The code of a closure: its index, and what is recorded under it. -/
  | code (k : Nat) (f : Function) (params : List Ident)
  /-- The tag of an activation whose slots have these names. -/
  | frame (names : List Ident)
  /-- The state of a slot of an activation. Only a `late` one may be without a value. -/
  | slot (i : Nat) (late : Bool)
  /-- A part of a pair, which is kept in a slot and has its cell at this address. -/
  | part (i addr : Nat)
  /-- What a reference refers to. -/
  | cell (i : Nat)

abbrev World := List Role

/-- Something of the evaluator that exactly one word may stand for. -/
inductive Owner where
  | slot (i : Nat)
  | cell (i : Nat)
  | closure (id : Nat)

def Role.owner : Role → Option Owner
  | .closure id => some (.closure id)
  | .slot i _ | .part i _ => some (.slot i)
  | .cell i => some (.cell i)
  | .fixed _ | .code _ _ _ | .frame _ => none

variable {ω' ω : World}

namespace World

def owner? (ω : World) (p : Nat) : Option Owner := ω[p]?.bind Role.owner

variable {p : Nat} {o : Owner}

theorem getElem?_mono (h : ω <+: ω') {role : Role} (hp : ω[p]? = some role) :
    ω'[p]? = some role := by
  obtain ⟨more, rfl⟩ := h
  obtain ⟨hlt, -⟩ := List.getElem?_eq_some_iff.mp hp
  rw [List.getElem?_append_left hlt, hp]

theorem owner?_append {roles : List Role} (h : owner? (ω ++ roles) p = some o) :
    owner? ω p = some o ∨ ω.length ≤ p ∧ owner? roles (p - ω.length) = some o := by
  unfold owner? at h ⊢
  by_cases hp : p < ω.length
  · rw [List.getElem?_append_left hp] at h
    exact .inl h
  · rw [List.getElem?_append_right (by omega)] at h
    exact .inr ⟨by omega, h⟩

def owners (ω : World) : List Owner := ω.filterMap Role.owner

theorem mem_owners (h : ω.owner? p = some o) : o ∈ ω.owners := by
  obtain ⟨role, hrole, ho⟩ := Option.bind_eq_some_iff.mp h
  exact List.mem_filterMap.mpr ⟨role, List.mem_of_getElem? hrole, ho⟩

/-- Nothing is represented in two places. -/
theorem owner?_inj (h : ω.owners.Nodup) {q : Nat} (hp : ω.owner? p = some o)
    (hq : ω.owner? q = some o) : p = q := by
  induction ω generalizing p q with
  | nil => cases hp
  | cons role ω ih =>
    have hcons : owners (role :: ω) = match role.owner with
        | some o => o :: owners ω
        | none => owners ω := by
      unfold owners
      cases hr : role.owner <;> simp [hr]
    -- what the first word stands for, no later one does
    have hfirst : role.owner = some o → ∀ q, owner? ω q ≠ some o := by
      intro hr q hq
      rw [hcons, hr] at h
      exact (List.nodup_cons.mp h).1 (mem_owners hq)
    have hrest : (owners ω).Nodup := by
      rw [hcons] at h
      cases hr : role.owner with
      | none => rwa [hr] at h
      | some o =>
        rw [hr] at h
        exact (List.nodup_cons.mp h).2
    cases p with
    | zero =>
      cases q with
      | zero => rfl
      | succ q => exact absurd hq (hfirst hp q)
    | succ p =>
      cases q with
      | zero => exact absurd hp (hfirst hq p)
      | succ q => rw [ih hrest hp hq]

theorem owner?_eq_none (h : ω.length ≤ p) : owner? ω p = none := by
  rw [owner?, List.getElem?_eq_none h]
  rfl

end World

/-! ## Values and environments in a world -/

/-- The activation that a link leads to and the ones around it are those of an environment. Links
lead to lower addresses. The names of an activation matter only if its slots are filled late: a
call has all its arguments, and its activation may have the names of another function with the
same body. -/
inductive EnvRep (ω : World) : Env → Option Nat → Prop
  | nil : EnvRep ω [] none
  | cons {frame : Frame} {env : Env} {addr : Nat} {outer : Option Nat} {names : List Ident}
      {late : Bool} (tag : ω[addr]? = some (.frame names))
      (link : ω[addr + Cell.activationLink]? = some (.fixed (Cell.linkWord outer)))
      (count : ω[addr + Cell.activationCount]? = some (.fixed frame.length))
      (slots : ∀ i b, frame[i]? = some b →
        ω[addr + Cell.activationSlots + i]? = some (.slot b.slot late))
      (named : late = true → frame.map Binding.name = names.map Ident.name)
      (below : ∀ a, outer = some a → a < addr)
      (rest : EnvRep ω env outer) : EnvRep ω (frame :: env) (some addr)

/-- The cell at an address is that of a value. The parts of a pair have lower addresses than the
pair, and so has the activation that a closure was made in. The second part of a pair is a
list. -/
inductive Rep (ω : World) : Value Address Layout → Nat → Prop
  | int {k : Int} {addr : Nat} (tag : ω[addr]? = some (.fixed Tag.int.word))
      (value : ω[addr + Cell.intValue]? = some (.fixed k)) : Rep ω (.int k) addr
  | bool {b : Bool} (tag : ω[Cell.boolAddr b]? = some (.fixed (Tag.bool b).word)) :
      Rep ω (.bool b) (Cell.boolAddr b)
  | null (tag : ω[Cell.nullAddr]? = some (.fixed Tag.null.word)) : Rep ω .null Cell.nullAddr
  | unit (tag : ω[Cell.unitAddr]? = some (.fixed Tag.unit.word)) : Rep ω .unit Cell.unitAddr
  | prim {p : Prim} (tag : ω[Cell.primAddr p]? = some (.fixed (Tag.prim p).word)) :
      Rep ω (.prim p) (Cell.primAddr p)
  | pair {h t addr x y : Nat} (tag : ω[addr]? = some (.fixed Tag.pair.word))
      (head : ω[addr + Cell.pairHead]? = some (.part h x))
      (tail : ω[addr + Cell.pairTail]? = some (.part t y))
      (hx : x < addr) (hy : y < addr)
      (list : ∃ t : Tag, t.isList ∧ ω[y]? = some (.fixed t.word)) : Rep ω (.pair h t) addr
  | ref {i addr : Nat} (tag : ω[addr]? = some (.fixed Tag.ref.word))
      (referent : ω[addr + Cell.refReferent]? = some (.cell i)) : Rep ω (.ref i) addr
  | closure {id addr k : Nat} {c : Closure Address Layout} {f : Function} {params : List Ident}
      {link : Option Nat} (tag : ω[addr]? = some (.closure id))
      (arity : ω[addr + Cell.closureArity]? = some (.fixed c.arity))
      (code : ω[addr + Cell.closureCode]? = some (.code k f params))
      (same : params.length = c.arity)
      (unsited : f.body.unsited = c.body)
      (outer : ω[addr + Cell.closureLink]? = some (.fixed (Cell.linkWord link)))
      (below : ∀ a, link = some a → a < addr)
      (env : EnvRep ω c.env link) : Rep ω (.closure id c) addr

def Value.tag {V L : Type} : Value V L → Tag
  | .int _ => .int
  | .bool b => .bool b
  | .null => .null
  | .unit => .unit
  | .prim p => .prim p
  | .pair _ _ => .pair
  | .ref _ => .ref
  | .closure _ _ => .closure

theorem Value.isList_tag (v : Value V L) : v.tag.isList = v.isList := by
  cases v <;> rfl

theorem Value.isFunction_tag (v : Value V L) : v.tag.isFunction = v.isFunction := by
  cases v <;> rfl

theorem Tag.word_inj {t t' : Tag} (h : t.word = t'.word) : t = t' := by
  have hsome : some t = some t' := by rw [← ofWord?_word, ← ofWord?_word, h]
  exact Option.some.inj hsome

theorem EnvRep.mono (hω : ω <+: ω') {env : Env} {link : Option Nat} (h : EnvRep ω env link) :
    EnvRep ω' env link := by
  induction h with
  | nil => exact .nil
  | cons tag link count slots named below _ ih =>
    exact .cons (World.getElem?_mono hω tag) (World.getElem?_mono hω link)
      (World.getElem?_mono hω count)
      (fun i b hb => World.getElem?_mono hω (slots i b hb)) named below ih

/-- A cell represents its value for good. -/
theorem Rep.mono (hω : ω <+: ω') {v : Value Address Layout} {addr : Nat} (h : Rep ω v addr) :
    Rep ω' v addr := by
  cases h with
  | int tag value => exact .int (World.getElem?_mono hω tag) (World.getElem?_mono hω value)
  | bool tag => exact .bool (World.getElem?_mono hω tag)
  | null tag => exact .null (World.getElem?_mono hω tag)
  | unit tag => exact .unit (World.getElem?_mono hω tag)
  | prim tag => exact .prim (World.getElem?_mono hω tag)
  | pair tag head tail hx hy list =>
    obtain ⟨t, ht, hlist⟩ := list
    exact .pair (World.getElem?_mono hω tag) (World.getElem?_mono hω head)
      (World.getElem?_mono hω tail) hx hy ⟨t, ht, World.getElem?_mono hω hlist⟩
  | ref tag referent => exact .ref (World.getElem?_mono hω tag) (World.getElem?_mono hω referent)
  | closure tag arity code same unsited outer below env =>
    exact .closure (World.getElem?_mono hω tag) (World.getElem?_mono hω arity)
      (World.getElem?_mono hω code) same unsited (World.getElem?_mono hω outer) below
      (env.mono hω)

/-! ## Roles that are played -/

namespace CodeTable

/-- The function with index `k` has these parameters and this body. -/
def HasFunction (t : CodeTable) (k : Nat) (params : List Ident) (body : SitedExpr) : Prop :=
  ∃ f, t.functions[k]? = some f ∧ f.body = body ∧ t.names[f.names]? = some params

/-- What `t` knows of functions, names and the activations below an address, `t'` knows as
well. -/
structure Grows (limit : Nat) (t t' : CodeTable) : Prop where
  function : ∀ (k : Nat) f, t.functions[k]? = some f → t'.functions[k]? = some f
  names : ∀ (k : Nat) xs, t.names[k]? = some xs → t'.names[k]? = some xs
  frame : ∀ p < limit, ∀ xs, t.frameNames? p = some xs → t'.frameNames? p = some xs

theorem Grows.refl (limit : Nat) (t : CodeTable) : Grows limit t t :=
  ⟨fun _ _ h => h, fun _ _ h => h, fun _ _ _ h => h⟩

theorem Grows.of_eq (h : t' = t) (limit : Nat) : Grows limit t t' :=
  h ▸ refl limit t

theorem HasFunction.mono (hgrows : Grows limit t t') {k : Nat} {params : List Ident}
    {body : SitedExpr} (h : t.HasFunction k params body) : t'.HasFunction k params body := by
  obtain ⟨f, hf, hbody, hnames⟩ := h
  exact ⟨f, hgrows.function k f hf, hbody, hgrows.names _ _ hnames⟩

theorem grows_addNames (t : CodeTable) (limit : Nat) (names : List Ident) :
    Grows limit t (t.addNames names).2 := by
  have hnames : ∀ (k : Nat) xs, t.names[k]? = some xs → (t.names.push names)[k]? = some xs := by
    intro k xs hx
    obtain ⟨hlt, -⟩ := Array.getElem?_eq_some_iff.mp hx
    rw [Array.getElem?_push, if_neg (Nat.ne_of_lt hlt), hx]
  refine ⟨fun k f hf => hf, hnames, fun p _ xs hx => ?_⟩
  obtain ⟨i, hi, hx⟩ := Option.bind_eq_some_iff.mp hx
  exact Option.bind_eq_some_iff.mpr ⟨i, hi, hnames i xs hx⟩

/-- A function that is added is there, and so is all that was there before. -/
theorem grows_addFunction (t : CodeTable) (limit : Nat) (params : List Ident) (site : Site)
    (body : SitedExpr) : Grows limit t (t.addFunction params site body).2 := by
  have hnames := t.grows_addNames limit params
  refine ⟨fun k f hf => ?_, hnames.names, hnames.frame⟩
  obtain ⟨hlt, -⟩ := Array.getElem?_eq_some_iff.mp hf
  change (t.functions.push ⟨t.names.size, site, body⟩)[k]? = some f
  rw [Array.getElem?_push, if_neg (Nat.ne_of_lt hlt), hf]

theorem hasFunction_addFunction (t : CodeTable) (params : List Ident) (site : Site)
    (body : SitedExpr) :
    (t.addFunction params site body).2.HasFunction (t.addFunction params site body).1 params
      body :=
  ⟨_, Array.getElem?_push_size, rfl, Array.getElem?_push_size⟩

end CodeTable

namespace Owner

def Within (s : Store Address Layout) : Owner → Prop
  | .slot i => i < s.slots.size
  | .cell i => i < s.cells.size
  | .closure id => id < s.closures

/-- What is owned is the same in both stores. -/
def Same (s s' : Store Address Layout) : Owner → Prop
  | .slot i => s'.slot i = s.slot i
  | .cell i => s'.cell i = s.cell i
  | .closure _ => True

end Owner

/-- The word at place `p` plays its role. -/
def Role.Holds (forms : List (Nat × Form)) (ω : World) (a : Arena) (s : Store Address Layout)
    (p : Nat) : Role → Prop
  | .fixed w => a.words[p]? = some w
  | .closure _ => a.words[p]? = some Tag.closure.word
  | .code k f params => a.words[p]? = some (k : Int) ∧ a.code.functions[k]? = some f ∧
      a.code.names[f.names]? = some params ∧ f.body.forms ⊆ forms
  | .frame names => a.words[p]? = some Tag.activation.word ∧ a.code.frameNames? p = some names
  | .slot i late => (late = true ∧ s.slot i = .uninit ∧ a.words[p]? = some Cell.uninit) ∨
      ∃ v addr, s.slot i = .ready v ∧ a.words[p]? = some ((addr : Nat) : Int) ∧ Rep ω v addr
  | .part i addr => ∃ v, s.slot i = .ready v ∧ a.words[p]? = some (addr : Int) ∧ Rep ω v addr
  | .cell i => ∃ addr : Nat, a.words[p]? = some (addr : Int) ∧ Rep ω (s.cell i) addr

/-- A word keeps playing its role as long as the word and what it stands for do not change. -/
theorem Role.Holds.mono {a a' : Arena} {s s' : Store Address Layout} {role : Role}
    (h : role.Holds forms ω a s p) (hω : ω <+: ω') (hword : a'.words[p]? = a.words[p]?)
    (hcode : a.code.Grows (p + 1) a'.code) (hsame : ∀ o, role.owner = some o → o.Same s s') :
    role.Holds forms ω' a' s' p := by
  cases role with
  | fixed | closure => exact hword.trans h
  | code k f params =>
    obtain ⟨hk, hf, hnames, hforms⟩ := h
    exact ⟨hword.trans hk, hcode.function k f hf, hcode.names _ _ hnames, hforms⟩
  | frame names =>
    obtain ⟨htag, hnames⟩ := h
    exact ⟨hword.trans htag, hcode.frame p (by omega) names hnames⟩
  | slot i late =>
    have hslot : s'.slot i = s.slot i := hsame _ rfl
    rcases h with ⟨hlate, hs, hw⟩ | ⟨v, addr, hs, hw, hv⟩
    · exact .inl ⟨hlate, hslot.trans hs, hword.trans hw⟩
    · exact .inr ⟨v, addr, hslot.trans hs, hword.trans hw, hv.mono hω⟩
  | part i addr =>
    have hslot : s'.slot i = s.slot i := hsame _ rfl
    obtain ⟨v, hs, hw, hv⟩ := h
    exact ⟨v, hslot.trans hs, hword.trans hw, hv.mono hω⟩
  | cell i =>
    have hcell : s'.cell i = s.cell i := hsame _ rfl
    obtain ⟨addr, hw, hv⟩ := h
    exact ⟨addr, hword.trans hw, hcell ▸ hv.mono hω⟩

/-! ## The invariant -/

/-- What a run remembers under the number of a form belongs to the form. -/
structure Run.Remembers (forms : List (Nat × Form)) (r : Run) : Prop where
  functions : ∀ (num : Nat) k, r.functions[num]? = some k → ∃ params body,
    (num, Form.function params body) ∈ forms ∧ r.arena.code.HasFunction k params body
  letNames : ∀ (num : Nat) k, r.letNames[some num]? = some k → ∃ xs,
    (num, Form.names xs) ∈ forms ∧ r.arena.code.names[k]? = some xs
  noNames : ∀ k, r.letNames[(none : Option Nat)]? = some k → r.arena.code.names[k]? = some []

theorem Run.Remembers.mono {r r' : Run} (h : r.Remembers forms)
    (hcode : r.arena.code.Grows limit r'.arena.code) (hfunctions : r'.functions = r.functions)
    (hnames : r'.letNames = r.letNames) : r'.Remembers forms := by
  refine ⟨fun num k hk => ?_, fun num k hk => ?_, fun k hk => ?_⟩
  · rw [hfunctions] at hk
    obtain ⟨params, body, hmem, hf⟩ := h.functions num k hk
    exact ⟨params, body, hmem, hf.mono hcode⟩
  · rw [hnames] at hk
    obtain ⟨xs, hmem, hxs⟩ := h.letNames num k hk
    exact ⟨xs, hmem, hcode.names _ _ hxs⟩
  · rw [hnames] at hk
    exact hcode.names _ _ (h.noNames k hk)

/-- A run in an arena is where the evaluator is. -/
structure Matches (forms : List (Nat × Form)) (m : Machine) (ω : World) (r : Run)
    (s : Store Address Layout) : Prop where
  size : r.arena.words.size = ω.length
  holds : ∀ (p : Nat) (role : Role), ω[p]? = some role → role.Holds forms ω r.arena s p
  once : ∀ p q o, ω.owner? p = some o → ω.owner? q = some o → p = q
  within : ∀ p o, ω.owner? p = some o → o.Within s
  unique : Cell.reserved.map Role.fixed <+: ω
  eager : s.Eager
  depth : r.depth = s.depth m
  counter : m.counter < s.depths.size
  remembers : r.Remembers forms

/-- The world has grown from `ω` to `ω'` while the evaluator went from `s` to `s'`: the new words
stand for what was made meanwhile. -/
structure World.Later (ω : World) (s : Store Address Layout) (ω' : World)
    (s' : Store Address Layout) : Prop where
  grows : ω <+: ω'
  fresh : ∀ p o, ω.length ≤ p → ω'.owner? p = some o → ¬ o.Within s
  within : ∀ o : Owner, o.Within s → o.Within s'

section

variable {forms : List (Nat × Form)} {m : Machine} {ω ω' ω'' : World} {r r' : Run}
  {s s' s'' : Store Address Layout}

theorem World.Later.refl (ω : World) (s : Store Address Layout) : ω.Later s ω s := by
  refine ⟨List.prefix_refl _, fun p o hp ho => ?_, fun _ h => h⟩
  rw [World.owner?_eq_none hp] at ho
  cases ho

theorem World.Later.trans (h : ω.Later s ω' s') (h' : ω'.Later s' ω'' s'') :
    ω.Later s ω'' s'' := by
  refine ⟨h.grows.trans h'.grows, fun p o hp ho hs => ?_, fun o ho => h'.within o (h.within o ho)⟩
  -- a word was added in the first part or in the second
  by_cases hlt : p < ω'.length
  · refine h.fresh p o hp ?_ hs
    obtain ⟨more, rfl⟩ := h'.grows
    rwa [World.owner?, List.getElem?_append_left hlt] at ho
  · exact h'.fresh p o (by omega) ho (h.within o hs)

/-- Only the evaluator goes on. -/
theorem World.Later.store (h : ∀ o : Owner, o.Within s → o.Within s') (ω : World) :
    ω.Later s ω s' :=
  ⟨List.prefix_refl _, (World.Later.refl ω s).fresh, h⟩

theorem World.Later.append {roles : List Role}
    (h : ∀ o ∈ World.owners roles, ¬ o.Within s) (hs : ∀ o : Owner, o.Within s →
      o.Within s') : ω.Later s (ω ++ roles) s' := by
  refine ⟨List.prefix_append _ _, fun p o hp ho => ?_, hs⟩
  rcases World.owner?_append ho with ho | ⟨-, ho⟩
  · rw [World.owner?_eq_none hp] at ho
    cases ho
  · exact h o (World.mem_owners ho)

namespace Matches

/-- The evaluator may change whatever no word stands for. -/
theorem store (h : Matches forms m ω r s) (hsame : ∀ p o, ω.owner? p = some o → o.Same s s')
    (hin : ∀ o : Owner, o.Within s → o.Within s') (heager : s'.Eager)
    (hdepths : s'.depths = s.depths) : Matches forms m ω r s' where
  size := h.size
  holds := fun p role hp => (h.holds p role hp).mono (List.prefix_refl _) rfl (.refl _ _)
    (fun o ho => hsame p o (by rw [World.owner?, hp]; exact ho))
  once := h.once
  within := fun p o ho => hin o (h.within p o ho)
  unique := h.unique
  eager := heager
  depth := by rw [h.depth, Store.depth, Store.depth, hdepths]
  counter := by rw [hdepths]; exact h.counter
  remembers := h.remembers

/-- The run may record functions and names. -/
theorem code (h : Matches forms m ω r s) (hwords : r'.arena.words = r.arena.words)
    (hcode : r.arena.code.Grows ω.length r'.arena.code) (hdepth : r'.depth = r.depth)
    (hremembers : r'.Remembers forms) : Matches forms m ω r' s where
  size := by rw [hwords, h.size]
  holds := fun p role hp => by
    obtain ⟨hlt, -⟩ := List.getElem?_eq_some_iff.mp hp
    refine (h.holds p role hp).mono (List.prefix_refl _) (by rw [hwords])
      ⟨hcode.function, hcode.names, fun q hq => hcode.frame q (by omega)⟩ (fun o _ => ?_)
    cases o <;> first | rfl | trivial
  once := h.once
  within := h.within
  unique := h.unique
  eager := h.eager
  depth := by rw [hdepth, h.depth]
  counter := h.counter
  remembers := hremembers

/-- Append a cell. Its words have to play their roles, and what they stand for must not have had
a word so far. -/
theorem append (h : Matches forms m ω r s) (cell : List Int) {roles : List Role}
    (hlen : cell.length = roles.length)
    (hwords : r'.arena.words = r.arena.words.appendList cell)
    (hcode : r.arena.code.Grows ω.length r'.arena.code) (hdepth : r'.depth = r.depth)
    (hremembers : r'.Remembers forms)
    (hnew : ∀ (i : Nat) (role : Role), roles[i]? = some role →
      role.Holds forms (ω ++ roles) r'.arena s (ω.length + i))
    (honce : (World.owners roles).Nodup)
    (hfree : ∀ o ∈ World.owners roles, o.Within s ∧ ∀ p, ω.owner? p ≠ some o) :
    Matches forms m (ω ++ roles) r' s where
  size := by
    rw [hwords, Array.appendList_eq_append, ← Array.length_toList, Array.toList_appendList,
      List.length_append, List.length_append, Array.length_toList, h.size, hlen]
  holds := fun p role hp => by
    by_cases hlt : p < ω.length
    · rw [List.getElem?_append_left hlt] at hp
      have hword : r'.arena.words[p]? = r.arena.words[p]? := by
        rw [hwords, Array.appendList_eq_append, ← Array.getElem?_toList, Array.toList_appendList,
          List.getElem?_append_left (by rw [Array.length_toList, h.size]; exact hlt),
          Array.getElem?_toList]
      refine (h.holds p role hp).mono (List.prefix_append _ _) hword
        ⟨hcode.function, hcode.names, fun q hq => hcode.frame q (by omega)⟩ (fun o _ => ?_)
      cases o <;> first | rfl | trivial
    · rw [List.getElem?_append_right (by omega)] at hp
      have hplace : p = ω.length + (p - ω.length) := by omega
      rw [hplace]
      exact hnew _ role hp
  once := fun p q o hp hq => by
    rcases World.owner?_append hp with hp | ⟨hp, hpo⟩
    · rcases World.owner?_append hq with hq | ⟨-, hqo⟩
      · exact h.once p q o hp hq
      · exact absurd hp ((hfree o (World.mem_owners hqo)).2 p)
    · rcases World.owner?_append hq with hq | ⟨hq, hqo⟩
      · exact absurd hq ((hfree o (World.mem_owners hpo)).2 q)
      · have := World.owner?_inj honce hpo hqo
        omega
  within := fun p o hp => by
    rcases World.owner?_append hp with hp | ⟨-, hpo⟩
    · exact h.within p o hp
    · exact (hfree o (World.mem_owners hpo)).1
  unique := h.unique.trans (List.prefix_append _ _)
  eager := h.eager
  depth := by rw [hdepth, h.depth]
  counter := h.counter
  remembers := hremembers

/-- Change a word and what it stands for. -/
theorem update (h : Matches forms m ω r s) {role : Role} (hp : ω[p]? = some role) {w : Int}
    (hwords : r'.arena.words = r.arena.words.setIfInBounds p w)
    (hcode : r'.arena.code = r.arena.code) (hdepth : r'.depth = r.depth)
    (hfunctions : r'.functions = r.functions) (hnames : r'.letNames = r.letNames)
    (hrole : role.Holds forms ω r'.arena s' p)
    (hsame : ∀ q o, ω.owner? q = some o → q ≠ p → o.Same s s')
    (hin : ∀ o : Owner, o.Within s → o.Within s') (heager : s'.Eager)
    (hdepths : s'.depths = s.depths) : Matches forms m ω r' s' where
  size := by rw [hwords, Array.size_setIfInBounds, h.size]
  holds := fun q role' hq => by
    by_cases hpq : q = p
    · subst hpq
      rw [hp] at hq
      cases hq
      exact hrole
    · have hword : r'.arena.words[q]? = r.arena.words[q]? := by
        rw [hwords, Array.getElem?_setIfInBounds, if_neg (Ne.symm hpq)]
      exact (h.holds q role' hq).mono (List.prefix_refl _) hword (.of_eq hcode _)
        (fun o ho => hsame q o (by rw [World.owner?, hq]; exact ho) hpq)
  once := h.once
  within := fun q o hq => hin o (h.within q o hq)
  unique := h.unique
  eager := heager
  depth := by rw [hdepth, h.depth, Store.depth, Store.depth, hdepths]
  counter := by rw [hdepths]; exact h.counter
  remembers := h.remembers.mono (.of_eq hcode 0) hfunctions hnames

end Matches

end

end Mapling
