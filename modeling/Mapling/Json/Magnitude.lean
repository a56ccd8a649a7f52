/-! # Numbers that are too large

A number that is not an integer of 64 bits stands for a floating-point number with 53 binary
digits. It is taken as the leading digits that make an integer of 64 bits, times a power of ten;
each of the two is rounded first, and then their product. A product beyond the largest
floating-point number stands for nothing. -/

namespace Mapling

namespace Json

/-! ## Rounding -/

/-- The binary digits a floating-point number has room for. -/
def precision : Nat := 53

/-- `n` divided by two to the power of `k`, to the nearest integer; of two that are equally near,
the even one. -/
def shiftNearest (n k : Nat) : Nat :=
  let unit := Nat.pow 2 k
  let q := n / unit
  let r := n % unit
  if 2 * r < unit ∨ (2 * r = unit ∧ q % 2 = 0) then q else q + 1

/-- The floating-point number nearest to `n`, as if there were no largest one. -/
def nearest (n : Nat) : Nat :=
  let k := n.log2 + 1 - precision
  shiftNearest n k * Nat.pow 2 k

/-- A shift by nothing changes nothing. -/
theorem shiftNearest_zero (n : Nat) : shiftNearest n 0 = n := by
  simp [shiftNearest, Nat.mod_one]

/-- Integers that need no more digits than there is room for are kept. -/
theorem nearest_eq_self {n : Nat} (h : n < Nat.pow 2 precision) : nearest n = n := by
  have hk : n.log2 + 1 - precision = 0 := by
    rcases Nat.eq_zero_or_pos n with rfl | hn
    · rfl
    · have := (Nat.log2_lt (Nat.ne_of_gt hn)).2 h
      omega
  simp [nearest, hk, shiftNearest_zero]

/-- From here on a number is nearer to two to the power of 1024 than to the largest
floating-point number. -/
def overflowBound : Nat := Nat.pow 2 1024 - Nat.pow 2 970

/-- The powers of ten up to this one are floating-point numbers. -/
def largestPower : Nat := 308

/-- Whether `n` times ten to the power of `e` is too large. -/
def isTooLarge (n : Nat) (e : Int) : Bool :=
  match e with
  | .ofNat e =>
    n != 0 && (largestPower < e || overflowBound ≤ nearest n * nearest (Nat.pow 10 e))
  | .negSucc _ => false

/-! ## Digits -/

/-- The largest integer that is taken from the digits of a number. -/
def maxLeading : Nat := 18446744073709551615

def digitValue (c : Char) : Nat := c.toNat - 48

/-- Go on with an integer `n` by the digits that follow it, as far as it stays small enough: the
integer, and the digits that are left. -/
def leading (n : Nat) : List Char → Nat × List Char
  | [] => (n, [])
  | c :: cs =>
    let m := n * 10 + digitValue c
    if m ≤ maxLeading then leading m cs else (n, c :: cs)

/-- Whether the number with these digits before and after its point, and this exponent, is too
large. A digit before the point that is left over counts as a power of ten. -/
def exceeds (whole frac : List Char) (exponent : Int) : Bool :=
  let (n, left) := leading 0 whole
  let (n, ignored) := leading n frac
  isTooLarge n ((left.length : Int) - (frac.length - ignored.length : Nat) + exponent)

end Json

end Mapling
