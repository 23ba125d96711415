import FlowAnalysis.Analyses.IntSet
import FlowAnalysis.Program.Method
import FlowAnalysis.Solver.Analysis

/-!
# Live variables

A variable is live where a later statement may read it before it is assigned again.  Assignments,
conditions and results count as reads; calls, stores to fields and operands of unary operators are
left aside.

## Main definitions

- `Liveness` — an analysis of live variables
- `Liveness.before` — the variables live before a statement, from those live after it
- `Liveness.analysis` — the dataflow analysis
-/

namespace FlowAnalysis

structure Liveness where
  id : String
  direction : Direction := .backward
  /-- The kinds of edges along which sets would have to change, which they cannot. -/
  edgesNeeded : List EdgeKind := []

namespace Liveness

/-- The variables that the right-hand side of an assignment counts as reading. -/
def reads : Expr VarId → List VarId
  | .var v => [v]
  | .binary _ a b => [a, b]
  | _ => []

def addVars (s : IntSet) (vs : List VarId) : IntSet := vs.foldl (fun s (v : VarId) => s.insert v) s

/-- The variables live on one side of a statement, from those live on the other. -/
def before (s : Stmt VarId) (live : IntSet) : IntSet :=
  match s with
  | .assign (some v) e => addVars (live.erase v) (reads e)
  | .assign none e => addVars live (reads e)
  | .branch c _ => addVars live [c.left, c.right]
  | .ret (some v) => addVars live [v]
  | _ => live

/-- The dataflow analysis of live variables in a method. -/
def analysis (a : Liveness) (m : Method) : Analysis StmtId IntSet where
  id := a.id
  direction := a.direction
  boundary := ∅
  initial := ∅
  merge s target := target.union s
  transfer n live recorded := .ofFact (before ((m.stmt? n).getD .nop) live) recorded []
  needsEdgeTransfer e := a.edgesNeeded.contains e.kind

end Liveness

end FlowAnalysis
