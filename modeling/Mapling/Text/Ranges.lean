/-! # Ranges of code points

A property of characters is given by the code points that have it, as closed ranges in
increasing order. A long table is written as the lengths of its runs instead. The tables are those
of Unicode 17. -/

namespace Mapling

/-- A property of characters, as closed ranges of code points. -/
abbrev CodeRanges := List (Nat × Nat)

namespace CodeRanges

def has (rs : CodeRanges) (c : Char) : Bool :=
  rs.any (fun r => r.1 ≤ c.toNat && c.toNat ≤ r.2)

/-- The ranges of a table of runs: from a code point on, how many are left out, how many are in, and
so on in turn. -/
def ofRuns : Nat → List Nat → CodeRanges
  | n, out :: run :: runs => (n + out, n + out + run - 1) :: ofRuns (n + out + run) runs
  | _, _ => []

end CodeRanges

end Mapling
