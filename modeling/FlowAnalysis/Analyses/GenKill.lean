import FlowAnalysis.Analyses.IntSet
import FlowAnalysis.Program.Stmt
import FlowAnalysis.Solver.Analysis
import FlowAnalysis.Table

/-!
# Gen-kill analyses

A gen-kill analysis follows a set of integers.  A statement, and an edge of some kind, takes a
fixed set out and then puts a fixed set in.  Where paths meet, either everything is kept that holds
on some path, or what holds on all of them.

## Main definitions

- `GenKill.Rule` — what is taken out and what is put in
- `GenKill` — a table of rules for statements and kinds of edges
- `GenKill.analysis` — the dataflow analysis
-/

namespace FlowAnalysis

/-- What is taken out of a set, and what is then put in. -/
structure GenKill.Rule where
  gen : IntSet := ∅
  kill : IntSet := ∅
  deriving DecidableEq

def GenKill.Rule.apply (r : GenKill.Rule) (s : IntSet) : IntSet := (s.diff r.kill).union r.gen

/-- What is kept where paths meet: what holds on some path, or what holds on all of them. -/
inductive GenKill.Meet where
  | union
  | intersect
  deriving DecidableEq

/-- A table of rules for statements and kinds of edges.  Statements without a rule change nothing;
along a kind of edge without a rule no set can be passed if it has to change. -/
structure GenKill where
  id : String
  direction : Direction
  meet : GenKill.Meet
  /-- All integers that a set may hold, which is what holds on all of no paths. -/
  everything : IntSet := ∅
  boundary : IntSet := ∅
  stmts : Table StmtId GenKill.Rule := ∅
  edges : Table EdgeKind GenKill.Rule := ∅
  /-- The kinds of edges along which sets change. -/
  edgesNeeded : List EdgeKind := []

namespace GenKill

def Meet.merge : Meet → IntSet → IntSet → IntSet
  | union, s, target => target.union s
  | intersect, s, target => target.inter s

/-- The dataflow analysis by a table of rules. -/
def analysis (a : GenKill) : Analysis StmtId IntSet where
  id := a.id
  direction := a.direction
  boundary := a.boundary
  initial := match a.meet with
    | .union => ∅
    | .intersect => a.everything
  merge := a.meet.merge
  transfer n s recorded := .ofFact ((a.stmts.getD n {}).apply s) recorded []
  needsEdgeTransfer e := a.edgesNeeded.contains e.kind
  edgeTransfer e s := (a.edges.get? e.kind).map (·.apply s)

end GenKill

end FlowAnalysis
