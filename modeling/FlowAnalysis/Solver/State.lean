import FlowAnalysis.Options
import FlowAnalysis.Solver.Analysis
import FlowAnalysis.Solver.Solution
import FlowAnalysis.Trail

/-!
# States of the solver

## Main definitions

- `Problem` — a graph to be analysed, the analysis and the settings
- `State` — how far the solver has come
- `SolveError` — why a problem has no solution
-/

namespace FlowAnalysis

/-- A graph to be analysed, the analysis, and the settings of the run. -/
structure Problem (N φ : Type) [DecidableEq N] where
  graph : Graph N
  analysis : Analysis N φ
  options : Options := {}

/-- What the solver knows of the edges, and what it did with them. -/
structure Ledger (N : Type) where
  /-- Which edges facts change along, as far as that has been decided for good. -/
  decisions : Table (Edge N) Bool := ∅
  /-- The edges about which the analysis was asked. -/
  asked : Trail (Edge N) := ∅
  /-- The edges along which a fact was changed. -/
  crossed : Trail (Edge N) := ∅

instance {N : Type} : EmptyCollection (Ledger N) := ⟨{}⟩

structure State (N φ : Type) where
  /-- The fact that has come to each node. -/
  inputs : Table N φ
  /-- The fact that goes on from each node. -/
  outputs : Table N φ
  /-- The nodes still to be visited, the next one first; a node may stand here more than once. -/
  worklist : List N
  ledger : Ledger N := ∅
  visited : Trail N := ∅
  log : Trail Message := ∅

inductive SolveError where
  /-- The graph has no node at which the flow could start. -/
  | noStart (direction : Direction)
  /-- Facts change along an edge, but the analysis cannot pass them along it. -/
  | noEdgeTransfer (id : String)
  deriving DecidableEq

def SolveError.message : SolveError → String
  | noStart .forward => "forward dataflow solve on a CFG without entry"
  | noStart .backward => "backward dataflow solve on a CFG without exit"
  | noEdgeTransfer id => "analysis '" ++ id ++ "' does not support edge transfer"

end FlowAnalysis
