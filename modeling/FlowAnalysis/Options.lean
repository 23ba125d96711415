import FlowAnalysis.Diagnostics

/-!
# Options of a run

## Main definitions

- `Options` — the settings of a run
- `Argument` — the requests that change them
- `Options.ofArguments` — the settings that a list of requests leads to
-/

namespace FlowAnalysis

structure Options where
  /-- Whether an analysis is asked once only, for each edge, if facts change along that edge. -/
  decideEdgesOnce : Bool := false
  diagnostics : Diagnostics := {}
  deriving DecidableEq

/-- A request for a change of the settings. -/
inductive Argument where
  /-- Keep messages; the text names topics, separated by commas. -/
  | diagnostics (topics : String)
  | decideEdgesOnce
  deriving DecidableEq

namespace Options

def grant (o : Options) : Argument → Options
  | .diagnostics topics => { o with diagnostics := o.diagnostics.request topics }
  | .decideEdgesOnce => { o with decideEdgesOnce := true }

def grantAll (o : Options) (args : List Argument) : Options := args.foldl grant o

/-- The settings that a list of requests leads to, from the settings without any. -/
def ofArguments (args : List Argument) : Options := grantAll {} args

end Options

end FlowAnalysis
