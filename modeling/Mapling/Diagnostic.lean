import Mapling.Span
import Mapling.Source

/-! # Diagnostics

Every stage before evaluation reports its errors the same way: a numbered code with its
category, a message, the span it concerns, and, once the source is known, the file and the
line. A report keeps the first twenty diagnostics of a stage and counts all of them. -/

namespace Mapling

/-- Which kind of stage an error belongs to. -/
inductive Category where
  | reading
  | scoping
  | converting
deriving DecidableEq, Repr, Inhabited

namespace Category

def name : Category → String
  | .reading => "syntax"
  | .scoping => "scope"
  | .converting => "transform"

def all : List Category := [.reading, .scoping, .converting]

def ofName? (s : String) : Option Category := all.find? (fun c => c.name == s)

end Category

/-- A numbered kind of error. -/
structure Code where
  number : Nat
deriving DecidableEq, Repr, Inhabited

namespace Code

def unexpectedToken : Code := ⟨100⟩
def unexpectedCharacter : Code := ⟨101⟩
def integerTooLarge : Code := ⟨102⟩
def chainedComparison : Code := ⟨103⟩
def duplicateDeclaration : Code := ⟨500⟩
def unboundVariable : Code := ⟨501⟩
def nonSimpleRecursion : Code := ⟨600⟩

/-- The 500s are scope errors and the 600s conversion errors; every other code is an error of
the text itself. -/
def category (c : Code) : Category :=
  if 500 ≤ c.number ∧ c.number ≤ 599 then .scoping
  else if 600 ≤ c.number ∧ c.number ≤ 699 then .converting
  else .reading

def text (c : Code) : String := "E" ++ toString c.number

end Code

/-- One reported error. The file and the line are empty until a source is attached. -/
structure Diagnostic where
  file : String
  code : Code
  category : Category
  message : String
  span : Span
  sourceLine : String
  suggestion : Option String
deriving DecidableEq, Repr, Inhabited

namespace Diagnostic

/-- A diagnostic that knows of no source; its category is that of its code. -/
def ofCode (code : Code) (message : String) (span : Span) (suggestion : Option String) :
    Diagnostic :=
  { file := "", code, category := code.category, message, span, sourceLine := "", suggestion }

/-- Attach the source's name and the line the span starts on, empty if there is no such line. -/
def withSource (d : Diagnostic) (s : Source) : Diagnostic :=
  { d with file := s.name, sourceLine := (s.line? d.span.start.line).getD "" }

/-- `line:column: code [category] message`. -/
def text (d : Diagnostic) : String :=
  d.span.text ++ ": " ++ d.code.text ++ " [" ++ d.category.name ++ "] " ++ d.message

end Diagnostic

/-- The diagnostics of one stage: the first few, and the number there were in all. -/
structure Report where
  kept : List Diagnostic
  total : Nat
deriving DecidableEq, Repr, Inhabited

namespace Report

/-- How many diagnostics a report keeps. -/
def limit : Nat := 20

def empty : Report := ⟨[], 0⟩

/-- Record one more diagnostic: it is counted always, and kept while there is room. -/
def push (r : Report) (d : Diagnostic) : Report :=
  { kept := if r.kept.length < limit then r.kept ++ [d] else r.kept, total := r.total + 1 }

/-- The report of the diagnostics `ds`, found in this order. -/
def ofList (ds : List Diagnostic) : Report := ds.foldl push empty

theorem total_ofList (ds : List Diagnostic) : (ofList ds).total = ds.length := by
  have hpush (r : Report) : (ds.foldl push r).total = r.total + ds.length := by
    induction ds generalizing r with
    | nil => rfl
    | cons d ds ih =>
      rw [List.foldl_cons, ih, List.length_cons, push]
      exact Nat.succ_add_eq_add_succ _ _
  rw [ofList, hpush]
  exact Nat.zero_add _

theorem kept_push {r : Report} {ds : List Diagnostic} (h : r.kept = ds.take limit)
    (d : Diagnostic) : (r.push d).kept = (ds ++ [d]).take limit := by
  rw [push, h, List.length_take]
  rcases Nat.lt_or_ge ds.length limit with hlt | hge
  · rw [if_pos (by omega), List.take_of_length_le (Nat.le_of_lt hlt), List.take_of_length_le]
    rwa [List.length_append, List.length_singleton]
  · rw [if_neg (by omega), List.take_append_of_le_length hge]

theorem kept_ofList (ds : List Diagnostic) : (ofList ds).kept = ds.take limit := by
  have hpush (r : Report) (before : List Diagnostic) (h : r.kept = before.take limit) :
      (ds.foldl push r).kept = (before ++ ds).take limit := by
    induction ds generalizing r before with
    | nil => rw [List.append_nil]; exact h
    | cons d ds ih =>
      rw [List.foldl_cons, ih _ _ (kept_push h d), List.append_assoc, List.singleton_append]
  exact hpush empty [] rfl

def hasErrors (r : Report) : Bool := 0 < r.total

/-- A stage that looks at this gives up once the report is full. -/
def isFull (r : Report) : Bool := limit ≤ r.total

def withSource (r : Report) (s : Source) : Report :=
  { r with kept := r.kept.map (fun d => d.withSource s) }

def codes (r : Report) : List Code := r.kept.map Diagnostic.code

/-- The kept diagnostics, one to a line. -/
def text (r : Report) : String := String.intercalate "\n" (r.kept.map Diagnostic.text)

end Report

end Mapling
