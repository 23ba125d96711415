import FlowAnalysis.Constants.Analysis

/-!
# Checked evaluation

Evaluation by what kind of value an operand is.  It asks for the constant of a value, which is a
fault if the value is none, and it merges two values by cases, which is a fault if they fall under
none of the cases.

## Main definitions

- `Fault` — what can go wrong, and how it is reported
- `Checked.join`, `Checked.mergeEntries` — merging two values, and the entries of a fact
- `Checked.evaluate` — an expression on a fact
- `Checked.effect` — what a statement does to a fact

## Design notes

Nothing here rests on the constructors of `Value` but the questions `Value.isUndef`,
`Value.isConstant` and `Value.isNac`, and the constant of a value is had from `Value.constant`
only.
-/

namespace FlowAnalysis.Constants

/-- What can go wrong in an evaluation. -/
inductive Fault where
  /-- The constant of a value was asked for, and the value is none. -/
  | notConstant (error : Value.NotConstant)
  /-- Two values were merged of which nothing is laid down. -/
  | unexpectedValues (x y : Value)
  deriving DecidableEq

def Fault.message : Fault → String
  | notConstant error => error.message
  | unexpectedValues x y => "unexpected values in meet: " ++ x.text ++ ", " ++ y.text

instance : MonadLift (Except Value.NotConstant) (Except Fault) := ⟨Except.mapError .notConstant⟩

namespace Checked

/-- The least value that allows what either of two allows. -/
def join (x y : Value) : Except Fault Value := do
  if x.isUndef then return y
  if y.isUndef then return x
  if x.isNac || y.isNac then return .nac
  if x.isConstant && y.isConstant then
    return if (← x.constant) = (← y.constant) then x else .nac
  throw (.unexpectedValues x y)

/-- Merges entries into a fact, one after the other. -/
def mergeEntries (es : List (VarId × Value)) (target : Fact) : Except Fault Fact :=
  es.foldlM (fun t e => return t.set e.1 (← join e.2 (t.get e.1))) target

/-- Whether an operator divides by a value that is the constant zero. -/
def dividesByZero (op : BinaryOp) (divisor : Value) : Except Fault Bool := do
  if !op.isDivision then return false
  if !divisor.isConstant then return false
  return (← divisor.constant) = 0

/-- An operator on two values. -/
def evaluateBinary (op : BinaryOp) (x y : Value) : Except Fault Value := do
  if ← dividesByZero op y then return .undef
  if x.isNac || y.isNac then return .nac
  if x.isUndef || y.isUndef then return .undef
  let a ← x.constant
  let b ← y.constant
  return (op.fold? a b).elim .nac .const

/-- A function of constants on a value. -/
def evaluateUnary (x : Value) (f : Int32 → Int32) : Except Fault Value := do
  if x.isNac then return .nac
  if x.isUndef then return .undef
  return .const (f (← x.constant))

/-- What is known of the value of an expression. -/
def evaluate (e : Expr VarId) (f : Fact) : Except Fault Value :=
  match e with
  | .int n => return .const n
  | .var v => return f.get v
  | .binary op a b => evaluateBinary op (f.get a) (f.get b)
  | .neg a => evaluateUnary (f.get a) fun c => -c
  | .cast _ a => evaluateUnary (f.get a) id
  | .long _ | .invoke _ | .field _ => return .nac

/-- What a statement does to a fact. -/
def effect (m : Method) (s : Stmt VarId) (f : Fact) : Except Fault Fact := do
  match followed? m s with
  | some (v, e) => return f.set v (← evaluate e f)
  | none => return f

end Checked

end FlowAnalysis.Constants
