/-! # Positions and spans

A position is a line and a column, both counted from one; columns count bytes. The counters have 32
bits and start over when they are full. A span is the pair of its first and its last position. Nodes
that no source text stands behind carry the synthetic span, whose positions are all zero. -/

namespace Mapling

/-- Lines and columns are below two to the power of 32. -/
def positionBound : Nat := 4294967296

/-- What a counter of lines or columns shows instead of `n`. -/
def counted (n : Nat) : Nat := n % positionBound

/-- A place in a source text. -/
structure Pos where
  line : Nat
  col : Nat
deriving DecidableEq, Repr, Inhabited

namespace Pos

/-- Reading order: by line, then by column. -/
def precedes (p q : Pos) : Bool :=
  p.line < q.line || (p.line == q.line && p.col ≤ q.col)

instance : LE Pos := ⟨fun p q => p.precedes q = true⟩

instance (p q : Pos) : Decidable (p ≤ q) :=
  inferInstanceAs (Decidable (p.precedes q = true))

def first (p q : Pos) : Pos := if p ≤ q then p else q

def last (p q : Pos) : Pos := if p ≤ q then q else p

/-- The position after reading one byte: a newline starts the next line. -/
def advance (p : Pos) (c : Char) : Pos :=
  if c = '\n' then ⟨counted (p.line + 1), 1⟩ else ⟨p.line, counted (p.col + 1)⟩

end Pos

/-- A stretch of source text, from its first to its last position. -/
structure Span where
  start : Pos
  stop : Pos
deriving DecidableEq, Repr, Inhabited

namespace Span

/-- The span of a node that no source text stands behind. -/
def synthetic : Span := ⟨⟨0, 0⟩, ⟨0, 0⟩⟩

def point (p : Pos) : Span := ⟨p, p⟩

/-- Lines count from one, so a span that starts on line zero points nowhere. -/
def isSynthetic (s : Span) : Bool := s.start.line == 0

/-- The least span covering both; a synthetic span covers nothing. -/
def merge (s t : Span) : Span :=
  if s.isSynthetic then t
  else if t.isSynthetic then s
  else ⟨s.start.first t.start, s.stop.last t.stop⟩

/-- A span is shown by where it starts, as `line:column`. -/
def text (s : Span) : String :=
  toString s.start.line ++ ":" ++ toString s.start.col

end Span

end Mapling
