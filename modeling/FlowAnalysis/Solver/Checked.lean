import FlowAnalysis.Solver.Run

/-!
# The solver with checked lookups

The worklist solver as it looks things up: the fact recorded for a node, and the edges filed at a
node.  Each lookup may miss, which ends the run.  What is found is used without further questions.

## Main definitions

- `Miss` — a lookup that finds nothing, and how it is reported
- `Checked.factAt`, `Checked.inEdges`, `Checked.outEdges` — the lookups
- `Checked.visit`, `Checked.step` — a visit to a node, and to the next node of the worklist
- `Checked.run`, `Checked.solve` — visits until the worklist is empty

## Design notes

A miss is not one of the errors that a solve reports, so what comes out of a lookup stands around
what comes out of the solver: the one says whether the solver could go on, the other what it made
of it.  An arriving fact is compared with the recorded one, and written only if it is another.
-/

namespace FlowAnalysis

/-- A lookup that finds nothing. -/
inductive Miss (N : Type) where
  /-- No fact is recorded for a node. -/
  | fact (n : N)
  /-- No edges are filed at a node, not even none of them. -/
  | node (n : N)
  deriving DecidableEq

def Miss.message {N : Type} : Miss N → String
  | fact _ => "no fact recorded for node"
  | node _ => "node is not in the CFG"

namespace Checked

variable {N φ : Type} [DecidableEq N]

/-- The fact recorded for a node. -/
def factAt (facts : Table N φ) (n : N) : Except (Miss N) φ :=
  match facts.get? n with
  | some x => .ok x
  | none => .error (.fact n)

def slot (g : Graph N) (n : N) : Except (Miss N) (Slot N) :=
  match g.slot? n with
  | some s => .ok s
  | none => .error (.node n)

/-- The edges that end at a node, the oldest first. -/
def inEdges (g : Graph N) (n : N) : Except (Miss N) (List (Edge N)) := return (← slot g n).ins

/-- The edges that start at a node, the oldest first. -/
def outEdges (g : Graph N) (n : N) : Except (Miss N) (List (Edge N)) := return (← slot g n).outs

/-- The edges over which facts come to a node, the oldest first. -/
def arriving (d : Direction) (g : Graph N) (n : N) : Except (Miss N) (List (Edge N)) :=
  match d with
  | .forward => inEdges g n
  | .backward => outEdges g n

/-- The edges over which facts go on from a node, the oldest first. -/
def leaving (d : Direction) (g : Graph N) (n : N) : Except (Miss N) (List (Edge N)) :=
  match d with
  | .forward => outEdges g n
  | .backward => inEdges g n

/-- The fact that comes over an edge. -/
def cross (p : Problem N φ) (outputs : Table N φ) (e : Edge N) (l : Ledger N) :
    Except (Miss N) (Except SolveError (φ × Ledger N)) := do
  let fact ← factAt outputs (p.direction.tail e)
  match p.consult e l with
  | (false, l) => return .ok (fact, l)
  | (true, l) =>
    match p.analysis.edgeTransfer e fact with
    | some fact => return .ok (fact, { l with crossed := l.crossed.push e })
    | none => return .error (.noEdgeTransfer p.analysis.id)

/-- Merges the facts that arrive over edges into a fact, one edge after the other. -/
def gather (p : Problem N φ) (outputs : Table N φ) :
    List (Edge N) → φ → Ledger N → Except (Miss N) (Except SolveError (φ × Ledger N))
  | [], target, l => return .ok (target, l)
  | e :: es, target, l => do
    match ← cross p outputs e l with
    | .ok (fact, l) => gather p outputs es (p.analysis.merge fact target) l
    | .error err => return .error err

/-- The nodes that a fact goes on to from a node, once for each edge. -/
def next (p : Problem N φ) (n : N) : Except (Miss N) (List N) :=
  return (← leaving p.direction p.graph n).map p.direction.head

/-- Passes the fact that has come to a node through the node. -/
def pass (p : Problem N φ) (s : State N φ) (n : N) (inputs : Table N φ) (ledger : Ledger N) :
    Except (Miss N) (State N φ) := do
  let t := p.analysis.transfer n (← factAt inputs n) (← factAt s.outputs n)
  let queued : List N ← if t.changed then next p n else pure []
  let report := if t.changed then [.requeued p.direction queued.length] else []
  return { inputs
           outputs := s.outputs.insert n t.fact
           worklist := s.worklist ++ queued
           ledger
           visited := s.visited.push n
           log := s.log.append (p.shown (t.messages ++ report)) }

variable [DecidableEq φ]

/-- The facts that have come to the nodes, once those that arrive at a node have been merged. -/
def receive (p : Problem N φ) (s : State N φ) (n : N) :
    Except (Miss N) (Except SolveError (Table N φ × Ledger N)) := do
  if p.start? = some n then return .ok (s.inputs, s.ledger)
  match ← gather p s.outputs (← arriving p.direction p.graph n) p.analysis.initial s.ledger with
  | .ok (fact, l) =>
    let recorded ← factAt s.inputs n
    return .ok (if fact = recorded then s.inputs else s.inputs.insert n fact, l)
  | .error err => return .error err

def visit (p : Problem N φ) (s : State N φ) (n : N) :
    Except (Miss N) (Except SolveError (State N φ)) := do
  match ← receive p s n with
  | .ok (inputs, ledger) => return .ok (← pass p s n inputs ledger)
  | .error err => return .error err

/-- Visits the first node of the worklist; when there is none, nothing happens. -/
def step (p : Problem N φ) (s : State N φ) : Except (Miss N) (Except SolveError (State N φ)) :=
  match s.worklist with
  | [] => return .ok s
  | n :: rest => visit p { s with worklist := rest } n

/-- Visits nodes until the worklist is empty, but no more of them than the limit. -/
def run (p : Problem N φ) : Nat → State N φ → Except (Miss N) (Outcome N φ)
  | 0, s => return if s.worklist.isEmpty then .solved (p.settle s) else .unsettled s
  | limit + 1, s => do
    if s.worklist.isEmpty then return .solved (p.settle s)
    match ← step p s with
    | .ok t => run p limit t
    | .error err => return .failed err s.log

/-- Solves a problem by visiting nodes, but no more of them than the limit. -/
def solve (p : Problem N φ) (limit : Nat) : Except (Miss N) (Outcome N φ) :=
  match p.begin with
  | .ok s => run p limit s
  | .error err => return .failed err ∅

end Checked

end FlowAnalysis
