import Mapling.Diagnostic.Json
import Mapling.Proofs.Json.RoundTrip

/-! # Reports come back from their texts

What a library promises is a structure of laws (`Library.Documented`): strings, integers and lists
are written as such and read back, names by themselves, records member by member, and a text is read
as the value that it was written for. Each law is about one level only. A value comes back through a
codec if it comes back through the codecs of its parts (`Codec.Returns`), and for a record that asks
for keys that are all different, those of a record among its fields included.

Main statement: `Report.read?_jsonText`. -/

namespace Mapling

variable {α β : Type} {d : Nat}

/-! ## What a library promises -/

/-- The values that are written, not nested near the limit of a library. -/
structure Json.Modest (j : Json) : Prop where
  plain : j.Plain
  depth : j.depth ≤ 64

/-- The documented behaviour of a library. -/
structure Library.Documented (L : Library) : Prop where
  string_write : ∀ s, L.string.write s = .str s
  string_read : ∀ s, L.string.read? (.str s) = some s
  unsigned_write : ∀ bound n, n < bound → (L.unsigned bound).write n = .int n
  unsigned_read : ∀ bound n : Nat, n < bound → (L.unsigned bound).read? (.int n) = some n
  list_write : ∀ {α : Type} (c : Codec α) (as : List α),
    (L.list c).write as = .arr (as.map c.write)
  list_read : ∀ {α : Type} (c : Codec α) (js : List Json),
    (L.list c).read? (.arr js) = js.mapM c.read?
  named_write : ∀ {α : Type} (name : α → String) (all : List α), ∀ a ∈ all,
    (L.named name all).write a = .str (name a)
  named_read : ∀ {α : Type} (name : α → String) (all : List α), (all.map name).Nodup →
    ∀ a ∈ all, (L.named name all).read? (.str (name a)) = some a
  wrapped_write : ∀ {α β : Type} (wrap : α → β) (content : β → α) (c : Codec α) (b : β),
    (L.wrapped wrap content c).write b = c.write (content b)
  wrapped_read : ∀ {α β : Type} (wrap : α → β) (content : β → α) (c : Codec α) (j : Json),
    (L.wrapped wrap content c).read? j = (c.read? j).map wrap
  record_write : ∀ {α : Type} (fs : Fields α) (a : α), (L.record fs).write a = .obj (fs.members a)
  record_read : ∀ {α : Type} (fs : Fields α) (ms : List (String × Json)), (ms.map Prod.fst).Nodup →
    (Json.obj ms).Modest → (L.record fs).read? (.obj ms) = fs.ofMembers? ms
  text_value : ∀ j : Json, j.Modest → ∃ s, L.text? j = some s ∧ L.value? s = some j

/-! ## Coming back through a codec -/

/-- The value is written as a plain value, nested at most `d` times, and read back from it. -/
structure Codec.Returns (c : Codec α) (d : Nat) (a : α) : Prop where
  plain : (c.write a).Plain
  depth : (c.write a).depth ≤ d
  read : c.read? (c.write a) = some a

theorem Codec.Returns.of_write {c : Codec α} {a : α} {j : Json} (hwrite : c.write a = j)
    (hplain : j.Plain) (hdepth : j.depth ≤ d) (hread : c.read? j = some a) : c.Returns d a := by
  subst hwrite
  exact ⟨hplain, hdepth, hread⟩

namespace Fields

/-- The values of all fields come back. Nothing in a field that may be left out is written as if it
were left out. -/
def Returns {α : Type} (d : Nat) : Fields α → α → Prop
  | .field _ c, a => c.Returns d a
  | .optional _ c, a => ∀ b ∈ a, c.Returns d b ∧ c.write b ≠ .null
  | .flatten fs, a => fs.Returns d a
  | .both fs gs, (a, b) => fs.Returns d a ∧ gs.Returns d b
  | .make record parts fs, b => fs.Returns d (parts b) ∧ record (parts b) = b

theorem keys_members (fs : Fields α) (a : α) :
    List.Sublist ((fs.members a).map Prod.fst) fs.keys := by
  induction fs with
  | field key c => exact List.Sublist.refl _
  | optional key c =>
    cases a with
    | none => exact List.nil_sublist _
    | some a => exact List.Sublist.refl _
  | flatten fs ih => exact ih a
  | both fs gs ihf ihg =>
    obtain ⟨a, b⟩ := a
    rw [members, List.map_append]
    exact (ihf a).append (ihg b)
  | make record parts fs ih => exact ih (parts a)

theorem lookup_between {key : String} {pre post : List (String × Json)} (j : Json)
    (hpre : key ∉ pre.map Prod.fst) : (pre ++ (key, j) :: post).lookup key = some j := by
  induction pre with
  | nil => simp
  | cons m pre ih =>
    rw [List.map_cons, List.mem_cons, not_or] at hpre
    rw [List.cons_append, List.lookup_cons, beq_false_of_ne hpre.1]
    exact ih hpre.2

theorem lookup_eq_none {key : String} {ms : List (String × Json)} (h : key ∉ ms.map Prod.fst) :
    ms.lookup key = none := by
  induction ms with
  | nil => rfl
  | cons m ms ih =>
    rw [List.map_cons, List.mem_cons, not_or] at h
    rw [List.lookup_cons, beq_false_of_ne h.1]
    exact ih h.2

/-- A record is found among its members, with members of other keys around them. -/
theorem ofMembers?_members (fs : Fields α) (a : α) (hkeys : fs.keys.Nodup) (ha : fs.Returns d a)
    (pre post : List (String × Json)) (hpre : ∀ key ∈ fs.keys, key ∉ pre.map Prod.fst)
    (hpost : ∀ key ∈ fs.keys, key ∉ post.map Prod.fst) :
    fs.ofMembers? (pre ++ fs.members a ++ post) = some a := by
  induction fs generalizing pre post with
  | field key c =>
    rw [List.append_assoc]
    exact (congrArg (Option.bind · c.read?)
      (lookup_between _ (hpre key (.head _)))).trans ha.read
  | optional key c =>
    cases a with
    | none =>
      have hnone : (pre ++ [] ++ post).lookup key = none := by
        refine lookup_eq_none ?_
        rw [List.append_nil, List.map_append, List.mem_append, not_or]
        exact ⟨hpre key (.head _), hpost key (.head _)⟩
      rw [members, ofMembers?, hnone]
    | some a =>
      obtain ⟨hread, hnull⟩ := ha a rfl
      rw [members, ofMembers?, List.append_assoc, List.singleton_append,
        lookup_between _ (hpre key (.head _))]
      split
      · rename_i h
        cases h
      · rename_i h
        exact absurd (Option.some.inj h) hnull
      · rename_i h
        rw [← Option.some.inj h, hread.read]
        rfl
  | flatten fs ih => exact ih a hkeys ha pre post hpre hpost
  | both fs gs ihf ihg =>
    obtain ⟨a, b⟩ := a
    obtain ⟨hf, hg, hapart⟩ := List.nodup_append.mp hkeys
    simp only [keys, List.mem_append, or_imp, forall_and] at hpre hpost
    -- what one half looks up is not among the members of the other half
    have hfirst := ihf a hf ha.1 pre (gs.members b ++ post) hpre.1 (fun key hkey => by
      rw [List.map_append, List.mem_append, not_or]
      exact ⟨fun h => hapart key hkey key ((keys_members gs b).subset h) rfl, hpost.1 key hkey⟩)
    have hsecond := ihg b hg ha.2 (pre ++ fs.members a) post (fun key hkey => by
      rw [List.map_append, List.mem_append, not_or]
      exact ⟨hpre.2 key hkey, fun h => hapart key ((keys_members fs a).subset h) key hkey rfl⟩)
      hpost.2
    simp only [List.append_assoc] at hfirst hsecond
    simp only [members, ofMembers?, List.append_assoc, hfirst, hsecond, Option.bind_eq_bind,
      Option.bind_some, Option.pure_def]
  | make record parts fs ih =>
    rw [members, ofMembers?, ih (parts a) hkeys ha.1 pre post hpre hpost, Option.map_some, ha.2]

/-- The members of a record are plain values. -/
theorem plain_members (fs : Fields α) (a : α) (ha : fs.Returns d a) :
    ∀ m ∈ fs.members a, m.2.Plain ∧ m.2.depth ≤ d := by
  induction fs with
  | field key c => exact List.forall_mem_singleton.mpr ⟨ha.plain, ha.depth⟩
  | optional key c =>
    cases a with
    | none => exact nofun
    | some a => exact List.forall_mem_singleton.mpr ⟨(ha a rfl).1.plain, (ha a rfl).1.depth⟩
  | flatten fs ih => exact ih a ha
  | both fs gs ihf ihg =>
    obtain ⟨a, b⟩ := a
    exact List.forall_mem_append.mpr ⟨ihf a ha.1, ihg b ha.2⟩
  | make record parts fs ih => exact ih (parts a) ha.1

end Fields

theorem Json.depth_arr_le {js : List Json} (h : ∀ j ∈ js, j.depth ≤ d) :
    (Json.arr js).depth ≤ d + 1 := by
  rw [depth, Nat.add_le_add_iff_right]
  induction js with
  | nil => exact Nat.zero_le d
  | cons j js ih =>
    obtain ⟨hj, hjs⟩ := List.forall_mem_cons.mp h
    rw [itemsDepth]
    exact max_le hj (ih hjs)

theorem Json.depth_obj_le {ms : List (String × Json)} (h : ∀ m ∈ ms, m.2.depth ≤ d) :
    (Json.obj ms).depth ≤ d + 1 := by
  rw [depth, Nat.add_le_add_iff_right]
  induction ms with
  | nil => exact Nat.zero_le d
  | cons m ms ih =>
    obtain ⟨hm, hms⟩ := List.forall_mem_cons.mp h
    rw [membersDepth, memberDepth]
    exact max_le hm (ih hms)

namespace Library.Documented

variable {L : Library} (hL : L.Documented)
include hL

theorem returns_string (s : String) : L.string.Returns d s :=
  .of_write (hL.string_write s) (.str s) (Nat.zero_le d) (hL.string_read s)

theorem returns_unsigned {bound n : Nat} (hn : n < bound) (hbound : bound ≤ Json.sizeBound) :
    (L.unsigned bound).Returns d n :=
  .of_write (hL.unsigned_write bound n hn) (.int (hn.trans_le hbound)) (Nat.zero_le d)
    (hL.unsigned_read bound n hn)

theorem returns_named {name : α → String} {all : List α} (hall : (all.map name).Nodup) {a : α}
    (ha : a ∈ all) : (L.named name all).Returns d a :=
  .of_write (hL.named_write name all a ha) (.str _) (Nat.zero_le d)
    (hL.named_read name all hall a ha)

theorem returns_wrapped {wrap : α → β} {content : β → α} {c : Codec α} {b : β}
    (hb : wrap (content b) = b) (h : c.Returns d (content b)) :
    (L.wrapped wrap content c).Returns d b := by
  refine .of_write (hL.wrapped_write wrap content c b) h.plain h.depth ?_
  rw [hL.wrapped_read, h.read, Option.map_some, hb]

theorem returns_list {c : Codec α} {as : List α} (h : ∀ a ∈ as, c.Returns d a) :
    (L.list c).Returns (d + 1) as := by
  refine .of_write (hL.list_write c as) (.arr (List.forall_mem_map.mpr fun a ha => (h a ha).plain))
    (Json.depth_arr_le (List.forall_mem_map.mpr fun a ha => (h a ha).depth)) ?_
  rw [hL.list_read]
  induction as with
  | nil => rfl
  | cons a as ih =>
    obtain ⟨ha, has⟩ := List.forall_mem_cons.mp h
    simp [ha.read, ih has]

/-- A record comes back if its fields do and have different keys. -/
theorem returns_record {fs : Fields α} {a : α} (hkeys : fs.keys.Nodup) (ha : fs.Returns d a)
    (hd : d < 64) : (L.record fs).Returns (d + 1) a := by
  have hmembers := fs.plain_members a ha
  have hplain : (Json.obj (fs.members a)).Plain := .obj fun m hm => (hmembers m hm).1
  have hdepth : (Json.obj (fs.members a)).depth ≤ d + 1 :=
    Json.depth_obj_le fun m hm => (hmembers m hm).2
  have hfound := fs.ofMembers?_members a hkeys ha [] [] (fun _ _ => nofun) (fun _ _ => nofun)
  rw [List.nil_append, List.append_nil] at hfound
  refine .of_write (hL.record_write fs a) hplain hdepth ?_
  rw [hL.record_read fs _ ((fs.keys_members a).nodup hkeys) ⟨hplain, by omega⟩, hfound]

end Library.Documented

/-! ## Reports -/

structure Diagnostic.Fits (d : Diagnostic) : Prop where
  code : d.code.number < 2 ^ 16
  start : d.span.start.line < 2 ^ 32 ∧ d.span.start.col < 2 ^ 32
  stop : d.span.stop.line < 2 ^ 32 ∧ d.span.stop.col < 2 ^ 32

structure Report.Fits (r : Report) : Prop where
  kept : ∀ d ∈ r.kept, d.Fits
  total : r.total < 2 ^ 64

section

variable {L : Library} (hL : L.Documented)
include hL

/-- The category is taken as it stands, not from the code. -/
theorem Diagnostic.returns {e : Diagnostic} (h : e.Fits) :
    (L.record (Diagnostic.fields L)).Returns 1 e := by
  have hposition : ∀ {k}, k < 2 ^ 32 → (L.unsigned positionBound).Returns 0 k :=
    fun hk => hL.returns_unsigned hk (by decide)
  have hcategory : (Category.codec L).Returns 0 e.category :=
    hL.returns_named (by decide) (by cases e.category <;> decide)
  have hcode : (Code.codec L).Returns 0 e.code :=
    hL.returns_wrapped rfl (hL.returns_unsigned h.code (by decide))
  -- the keys of the span are none of the keys of the diagnostic
  have hkeys : (Diagnostic.fields L).keys = ["file", "code", "category", "message", "line",
    "column", "end_line", "end_column", "source_line", "suggestion"] := rfl
  refine hL.returns_record (hkeys ▸ by decide) ⟨⟨hL.returns_string _, hcode, hcategory,
    hL.returns_string _, ⟨⟨hposition h.start.1, hposition h.start.2, hposition h.stop.1,
      hposition h.stop.2⟩, rfl⟩, hL.returns_string _, fun s _ => ⟨hL.returns_string s, ?_⟩⟩, rfl⟩
    (by decide)
  rw [hL.string_write]
  exact nofun

theorem Report.returns {r : Report} (h : r.Fits) : (Report.codec L).Returns 3 r := by
  have hkeys : (Report.fields L).keys = ["errors", "total_errors"] := rfl
  exact hL.returns_record (hkeys ▸ by decide)
    ⟨⟨hL.returns_list fun e he => Diagnostic.returns hL (h.kept e he),
      hL.returns_unsigned h.total le_rfl⟩, rfl⟩ (by decide)

end

theorem Json.itemsReadable_of {js : List Json} (h : ∀ j ∈ js, j.isReadable = true) :
    itemsReadable js = true := by
  induction js with
  | nil => rfl
  | cons j js ih =>
    obtain ⟨hj, hjs⟩ := List.forall_mem_cons.mp h
    rw [itemsReadable, hj, ih hjs]
    rfl

theorem Json.membersReadable_of {ms : List (String × Json)} (h : ∀ m ∈ ms, m.2.isReadable = true) :
    membersReadable ms = true := by
  induction ms with
  | nil => rfl
  | cons m ms ih =>
    obtain ⟨hm, hms⟩ := List.forall_mem_cons.mp h
    rw [membersReadable, memberReadable, hm, ih hms]
    rfl

theorem Json.isReadable_of_plain {j : Json} (h : j.Plain) : j.isReadable = true := by
  induction h with
  | int | str => rfl
  | arr _ ih => exact itemsReadable_of ih
  | obj _ ih => exact membersReadable_of ih

/-- No key of an object whose keys are all different is repeated. -/
theorem length_filter_key_le {ms : List (String × Json)} (h : (ms.map Prod.fst).Nodup)
    (key : String) : (ms.filter (fun m => m.1 == key)).length ≤ 1 := by
  have hcount : (ms.filter (fun m => m.1 == key)).length = (ms.map Prod.fst).count key := by
    rw [List.count, List.countP_map, List.countP_eq_length_filter]
    rfl
  rw [hcount]
  exact List.nodup_iff_count_le_one.mp h key

/-- The value with a given name is the first one that has it. -/
theorem find?_name {name : α → String} {all : List α} (hall : (all.map name).Nodup) {a : α}
    (ha : a ∈ all) : all.find? (fun b => name b == name a) = some a := by
  induction all with
  | nil => cases ha
  | cons b all ih =>
    obtain ⟨hb, hall⟩ := List.nodup_cons.mp hall
    rcases List.mem_cons.mp ha with rfl | ha
    · exact List.find?_cons_of_pos (beq_self_eq_true _)
    · have hne : (name b == name a) = false :=
        beq_false_of_ne fun h => hb (h ▸ List.mem_map_of_mem ha)
      simp only [List.find?_cons, hne]
      exact ih hall ha

/-- Values as JSON behave as it is documented. -/
theorem Library.documented_json : Library.json.Documented where
  string_write _ := rfl
  string_read _ := rfl
  unsigned_write _ _ _ := rfl
  unsigned_read bound n hn := by
    change (if n < bound then some n else none) = some n
    rw [if_pos hn]
  list_write _ _ := rfl
  list_read _ _ := rfl
  named_write _ _ _ _ := rfl
  named_read name all hall a ha := find?_name hall ha
  wrapped_write _ _ _ _ := rfl
  wrapped_read _ _ _ _ := rfl
  record_write _ _ := rfl
  record_read fs ms hkeys hms := by
    have hfull : ((Json.obj ms).isReadable && (Json.obj ms).depth + 2 ≤ nestingBound) = true := by
      rw [Json.isReadable_of_plain hms.plain, Bool.true_and, decide_eq_true_eq]
      exact (Nat.add_le_add_right hms.depth 2).trans (by decide)
    have honce : fs.keys.all (fun key => (ms.filter (fun m => m.1 == key)).length ≤ 1) = true :=
      List.all_eq_true.mpr fun key _ => decide_eq_true (length_filter_key_le hkeys key)
    change record? fs (.obj ms) = _
    simp only [record?, hfull, honce, Bool.not_true, Bool.and_false, Bool.false_eq_true, if_false,
      if_true]
  text_value j hj := ⟨j.text, rfl, Json.read?_text hj.plain⟩

/-- A report with characters that are escaped, a suggestion, and a category that is not that of the
code. -/
def Report.oddReport : Report :=
  ⟨[⟨"a\"b", ⟨65535⟩, .scoping, "\t\u001f\\é", ⟨⟨0, 4294967295⟩, ⟨1, 1⟩⟩, "x\r", some "\n"⟩,
    ⟨"", .unboundVariable, .converting, "", .synthetic, "", none⟩], 18446744073709551615⟩

end Mapling
