import Mapling.Eval.Error
import Mapling.Operator

/-! # Integer operators

Integers are those of 64 bits with a sign. A result outside that range is an overflow, never a
wrapped number; division goes toward zero. -/

namespace Mapling

def minInt : Int := -9223372036854775808

def maxInt : Int := 9223372036854775807

/-- The integer, if it has 64 bits; otherwise the operator overflows. -/
def checkedInt (op : String) (n : Int) : Except EvalError Int :=
  if minInt ≤ n ∧ n ≤ maxInt then .ok n else .error (.integerOverflow op)

/-- What an operator on two integers yields. -/
inductive Scalar where
  | int (n : Int)
  | bool (b : Bool)
deriving DecidableEq, Repr

def negate (n : Int) : Except EvalError Int := checkedInt UnaryOp.neg.symbol (-n)

namespace BinaryOp

/-- The value of an operator on two integers. The operators that are not about integers have
none. -/
def onInts (op : BinaryOp) (a b : Int) : Except EvalError Scalar :=
  match op with
  | .add => (checkedInt op.symbol (a + b)).map .int
  | .sub => (checkedInt op.symbol (a - b)).map .int
  | .mul => (checkedInt op.symbol (a * b)).map .int
  | .div =>
    if b = 0 then .error .divisionByZero else (checkedInt op.symbol (a.tdiv b)).map .int
  | .lt => .ok (.bool (a < b))
  | .le => .ok (.bool (a ≤ b))
  | .gt => .ok (.bool (a > b))
  | .ge => .ok (.bool (a ≥ b))
  | .eq | .ne | .and | .or | .assign =>
    .error (.typeMismatch op.symbol "integer operands")

end BinaryOp

end Mapling
