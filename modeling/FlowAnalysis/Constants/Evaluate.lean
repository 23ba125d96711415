import FlowAnalysis.Constants.Fact
import FlowAnalysis.Diagnostics

/-!
# Evaluation of expressions

An expression is evaluated on what is known of its variables.  Where all operands are constants the
result is the one that the expression has when the program runs, in 32-bit arithmetic that wraps
around.

## Main definitions

- `BinaryOp.fold?` — an operator on two constants
- `evaluateBinary` — an operator on two values
- `evaluate` — an expression on a fact
- `divisionMessages` — what there is to report of an evaluation

## Design notes

A divisor of zero is looked for before anything else, so that `x / 0` is `undef` even if nothing is
known of `x`.  This is why evaluation is not monotone: with more known of the divisor, `nac` may
become `undef`.
-/

namespace FlowAnalysis

/-- Arithmetic on words of 32 bits.  Results wrap around; division truncates towards zero, and a
remainder has the sign of the dividend.  Division by zero is excluded beforehand. -/
def ArithOp.eval : ArithOp → Int32 → Int32 → Int32
  | add, a, b => a + b
  | sub, a, b => a - b
  | mul, a, b => a * b
  | div, a, b => a / b
  | rem, a, b => a % b

def CondOp.holds : CondOp → Int32 → Int32 → Bool
  | eq, a, b => a = b
  | ne, a, b => a ≠ b
  | lt, a, b => a < b
  | gt, a, b => b < a
  | le, a, b => a ≤ b
  | ge, a, b => b ≤ a

/-- The distance of a shift: the lowest five bits of the second operand, whatever its sign. -/
def ShiftOp.distance (b : Int32) : Nat := (b.toBitVec &&& 0x1f#32).toNat

/-- Shifts of words by a distance, which is smaller than the width of a word.  A shift to the right
fills with the sign, or with zeros. -/
def ShiftOp.eval : ShiftOp → Int32 → Int32 → Int32
  | left, a, b => .ofBitVec (a.toBitVec <<< distance b)
  | right, a, b => .ofBitVec (a.toBitVec.sshiftRight (distance b))
  | rightZero, a, b => .ofBitVec (a.toBitVec >>> distance b)

def BitOp.eval : BitOp → Int32 → Int32 → Int32
  | or, a, b => a ||| b
  | and, a, b => a &&& b
  | xor, a, b => a ^^^ b

/-- An operator on two constants.  Conditions give one or zero, and the comparisons of wide and of
floating-point numbers give nothing: their operands are not integers. -/
def BinaryOp.fold? : BinaryOp → Int32 → Int32 → Option Int32
  | arith op, a, b => some (op.eval a b)
  | cond op, a, b => some (if op.holds a b then 1 else 0)
  | shift op, a, b => some (op.eval a b)
  | bit op, a, b => some (op.eval a b)
  | cmp _, _, _ => none

namespace Constants

/-- Whether an operator divides by a value that is the constant zero. -/
def dividesByZero (op : BinaryOp) (divisor : Value) : Bool :=
  op.isDivision && divisor = .const 0

/-- An operator on two values.  Division by the constant zero has no result; otherwise an operand
that is not a constant makes the result none, and failing that an operand that is `undef` makes the
result `undef`. -/
def evaluateBinary (op : BinaryOp) (x y : Value) : Value :=
  if dividesByZero op y then .undef else
  match x, y with
  | .nac, _ => .nac
  | _, .nac => .nac
  | .undef, _ => .undef
  | _, .undef => .undef
  | .const a, .const b => (op.fold? a b).elim .nac .const

/-- The value with its sign changed, if it is a constant. -/
def negate : Value → Value
  | .const c => .const (-c)
  | x => x

/-- What is known of the value of an expression.  A cast keeps the value of its operand; wide
literals, calls and fields may have any value. -/
def evaluate : Expr VarId → Fact → Value
  | .var v, f => f.get v
  | .int n, _ => .const n
  | .long _, _ => .nac
  | .binary op a b, f => evaluateBinary op (f.get a) (f.get b)
  | .neg a, f => negate (f.get a)
  | .cast _ a, f => f.get a
  | .invoke _, _ => .nac
  | .field _, _ => .nac

/-- What there is to report of an evaluation: a division by zero. -/
def divisionMessages (m : Method) (e : Expr VarId) (f : Fact) : List Message :=
  match e with
  | .binary op _ b => if dividesByZero op (f.get b) then [.divisionByZero (m.exprText e)] else []
  | _ => []

end Constants

end FlowAnalysis
