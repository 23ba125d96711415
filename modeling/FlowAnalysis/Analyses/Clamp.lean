import FlowAnalysis.Program.Stmt
import FlowAnalysis.Solver.Analysis
import FlowAnalysis.Table

/-!
# Saturating sums along paths

A clamping analysis follows one integer.  A statement, and an edge of some kind, adds a fixed weight
and brings the sum back into a range.  Where paths meet, the greatest or the least of the sums is
kept.

## Main definitions

- `Clamp` — a range, and weights for statements and kinds of edges
- `Clamp.add` — addition that stays in the range
- `Clamp.analysis` — the dataflow analysis
-/

namespace FlowAnalysis

/-- Which sum is kept where paths meet. -/
inductive Clamp.Meet where
  | max
  | min
  deriving DecidableEq

/-- A range, and weights for statements and kinds of edges.  Statements without a weight add
nothing; along a kind of edge without a weight no sum can be passed if it has to change. -/
structure Clamp where
  id : String
  direction : Direction
  meet : Clamp.Meet
  lo : Int
  hi : Int
  boundary : Int
  stmts : Table StmtId Int := ∅
  edges : Table EdgeKind Int := ∅
  /-- The kinds of edges along which sums change. -/
  edgesNeeded : List EdgeKind := []

namespace Clamp

/-- The integer of the range that is nearest to an integer. -/
def toRange (a : Clamp) (x : Int) : Int := if x < a.lo then a.lo else if a.hi < x then a.hi else x

/-- Addition that stays in the range. -/
def add (a : Clamp) (weight x : Int) : Int := a.toRange (x + weight)

/-- The dataflow analysis by a table of weights.  The boundary need not lie in the range. -/
def analysis (a : Clamp) : Analysis StmtId Int where
  id := a.id
  direction := a.direction
  boundary := a.boundary
  initial := match a.meet with
    | .max => a.lo
    | .min => a.hi
  merge x target := match a.meet with
    | .max => Max.max target x
    | .min => Min.min target x
  transfer n x recorded := .ofFact (a.add (a.stmts.getD n 0) x) recorded []
  needsEdgeTransfer e := a.edgesNeeded.contains e.kind
  edgeTransfer e x := (a.edges.get? e.kind).map (a.add · x)

end Clamp

end FlowAnalysis
