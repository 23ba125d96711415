import FlowAnalysis.Constants.Analysis
import FlowAnalysis.Trail

/-!
# Evaluation that reports as it goes

Constant propagation once more, with each message written to the log at the place where it comes up,
and there only if the settings keep it.

## Main definitions

- `Reporting` — work that has the settings at hand and a log to write to
- `Reporting.tell` — writes a message if it is kept
- `Reporting.boundary`, `Reporting.evaluate`, `Reporting.transfer` — the work that has to report
-/

namespace FlowAnalysis.Constants

/-- Work that has the settings for the messages at hand, and a log to write to. -/
abbrev Reporting := ReaderT Diagnostics (StateM (Trail Message))

namespace Reporting

/-- Writes a message to the log, if it is kept. -/
def tell (msg : Message) : Reporting Unit := do
  if (← read).shows msg then modify (·.push msg)

/-- What is known when a method is entered. -/
def boundary (m : Method) : Reporting Fact := do
  let f := (suppliedVars m).foldl (fun f v => f.set v .nac) ∅
  tell (.boundary m.name (f.text m.nameOf))
  return f

/-- An operator on two variables. -/
def evaluateBinary (m : Method) (op : BinaryOp) (a b : VarId) (f : Fact) : Reporting Value := do
  if dividesByZero op (f.get b) then
    tell (.divisionByZero (m.exprText (.binary op a b)))
    return .undef
  match f.get a, f.get b with
  | .nac, _ | _, .nac => return .nac
  | .undef, _ | _, .undef => return .undef
  | .const c, .const d => return (op.fold? c d).elim .nac .const

/-- What is known of the value of an expression. -/
def evaluate (m : Method) (e : Expr VarId) (f : Fact) : Reporting Value :=
  match e with
  | .int n => return .const n
  | .var v => return f.get v
  | .binary op a b => evaluateBinary m op a b f
  | .neg a => return negate (f.get a)
  | .cast _ a => return f.get a
  | .long _ | .invoke _ | .field _ => return .nac

/-- Passes a fact through a statement, and says whether the result is another fact than the one that
was recorded. -/
def transfer (m : Method) (s : Stmt VarId) (f recorded : Fact) : Reporting (Fact × Bool) := do
  match followed? m s with
  | some (v, e) =>
    let out := f.set v (← evaluate m e f)
    return (out, out ≠ recorded)
  | none => return (f, f ≠ recorded)

end Reporting

end FlowAnalysis.Constants
