import FlowAnalysis.Solver.State

/-!
# The worklist solver

The worklist starts with all nodes, in the order of the graph.  A visit takes the first node,
merges the facts that arrive there, passes the result through the node, and, if that reports a
change, puts the nodes that the fact goes on to at the end of the worklist, once for each edge.
The solver is done when the worklist is empty.

## Main definitions

- `Problem.begin` — the state before the first visit
- `Problem.arrive` — the fact that comes to a node
- `Problem.visit`, `Problem.step` — a visit to a node, and to the next node of the worklist
- `Problem.run`, `Problem.solve` — visits until the worklist is empty

## Design notes

The arriving facts are merged afresh at each visit, starting from the initial fact; nothing that
arrived at an earlier visit is kept.  This makes a difference for analyses that are not monotone,
and for these the worklist need not ever be empty.  A run is therefore given a limit on the number
of visits, and `Outcome.unsettled` tells a run that met its limit from one that is done.

The direction enters only through `Direction`.  `TwoWay.solve` is the same solver written out for
either direction.
-/

namespace FlowAnalysis

inductive Outcome (N φ : Type) where
  /-- The worklist is empty. -/
  | solved (state : State N φ)
  /-- An error, and the messages kept until then. -/
  | failed (error : SolveError) (log : Trail Message)
  /-- The limit on the number of visits is met. -/
  | unsettled (state : State N φ)

namespace Problem

variable {N φ : Type} [DecidableEq N]

abbrev direction (p : Problem N φ) : Direction := p.analysis.direction

def start? (p : Problem N φ) : Option N := p.direction.start? p.graph

def shown (p : Problem N φ) (ms : List Message) : List Message := p.options.diagnostics.shown ms

/-- The fact recorded for a node. -/
def factAt (p : Problem N φ) (facts : Table N φ) (n : N) : φ := facts.getD n p.analysis.initial

/-- The state before the first visit, when the flow starts at a given node. -/
def beginAt (p : Problem N φ) (start : N) : State N φ where
  inputs := .tabulate p.graph.nodes fun n =>
    if n = start then p.analysis.boundary else p.analysis.initial
  outputs := .tabulate p.graph.nodes fun _ => p.analysis.initial
  worklist := p.graph.nodes
  log := Trail.append ∅ <| p.shown (p.analysis.boundaryMessages ++ [.seeded p.direction p.graph.nodes.length])

def begin (p : Problem N φ) : Except SolveError (State N φ) :=
  match p.start? with
  | some start => .ok (p.beginAt start)
  | none => .error (.noStart p.direction)

/-- Asks the analysis whether facts change along an edge, or takes the answer it gave before if
edges are decided once only. -/
def consult (p : Problem N φ) (e : Edge N) (l : Ledger N) : Bool × Ledger N :=
  let answer := p.analysis.needsEdgeTransfer e
  let asked := l.asked.push e
  if p.options.decideEdgesOnce then
    match l.decisions.get? e with
    | some known => (known, l)
    | none => (answer, { l with decisions := l.decisions.insert e answer, asked })
  else
    (answer, { l with asked })

def cross (p : Problem N φ) (outputs : Table N φ) (e : Edge N) (l : Ledger N) :
    Except SolveError (φ × Ledger N) :=
  let fact := p.factAt outputs (p.direction.tail e)
  match p.consult e l with
  | (false, l) => .ok (fact, l)
  | (true, l) =>
    match p.analysis.edgeTransfer e fact with
    | some fact => .ok (fact, { l with crossed := l.crossed.push e })
    | none => .error (.noEdgeTransfer p.analysis.id)

/-- Merges the facts that arrive over edges into a fact, one edge after the other. -/
def gather (p : Problem N φ) (outputs : Table N φ) :
    List (Edge N) → φ → Ledger N → Except SolveError (φ × Ledger N)
  | [], target, l => .ok (target, l)
  | e :: es, target, l =>
    match p.cross outputs e l with
    | .ok (fact, l) => p.gather outputs es (p.analysis.merge fact target) l
    | .error err => .error err

/-- The fact that comes to a node: the recorded one where the flow starts, and elsewhere what
arrives over the edges, merged into the initial fact. -/
def arrive (p : Problem N φ) (s : State N φ) (n : N) : Except SolveError (φ × Ledger N) :=
  if p.start? = some n then .ok (p.factAt s.inputs n, s.ledger)
  else p.gather s.outputs (p.direction.arriving p.graph n) p.analysis.initial s.ledger

/-- The nodes that a fact goes on to from a node, once for each edge. -/
def next (p : Problem N φ) (n : N) : List N :=
  (p.direction.leaving p.graph n).map p.direction.head

/-- Passes a fact that has come to a node through the node. -/
def pass (p : Problem N φ) (s : State N φ) (n : N) (fact : φ) (ledger : Ledger N) : State N φ :=
  let t := p.analysis.transfer n fact (p.factAt s.outputs n)
  let queued := if t.changed then p.next n else []
  let report := if t.changed then [.requeued p.direction queued.length] else []
  { inputs := s.inputs.insert n fact
    outputs := s.outputs.insert n t.fact
    worklist := s.worklist ++ queued
    ledger
    visited := s.visited.push n
    log := s.log.append (p.shown (t.messages ++ report)) }

def visit (p : Problem N φ) (s : State N φ) (n : N) : Except SolveError (State N φ) :=
  match p.arrive s n with
  | .ok (fact, ledger) => .ok (p.pass s n fact ledger)
  | .error err => .error err

/-- Visits the first node of the worklist; when there is none, nothing happens. -/
def step (p : Problem N φ) (s : State N φ) : Except SolveError (State N φ) :=
  match s.worklist with
  | [] => .ok s
  | n :: rest => p.visit { s with worklist := rest } n

/-- Reports that the worklist is empty. -/
def settle (p : Problem N φ) (s : State N φ) : State N φ :=
  { s with log := s.log.append (p.shown [.settled s.visited.size]) }

/-- Visits nodes until the worklist is empty, but no more of them than the limit. -/
def run (p : Problem N φ) : Nat → State N φ → Outcome N φ
  | 0, s => if s.worklist.isEmpty then .solved (p.settle s) else .unsettled s
  | limit + 1, s =>
    if s.worklist.isEmpty then .solved (p.settle s) else
    match p.step s with
    | .ok t => p.run limit t
    | .error err => .failed err s.log

/-- Solves a problem by visiting nodes, but no more of them than the limit. -/
def solve (p : Problem N φ) (limit : Nat) : Outcome N φ :=
  match p.begin with
  | .ok s => p.run limit s
  | .error err => .failed err ∅

/-- The facts of a state in the order of the program: before a node stands what has come to it when
the flow is forward, and what goes on from it when the flow is backward. -/
def solution (p : Problem N φ) (s : State N φ) : Solution N φ :=
  match p.direction with
  | .forward => ⟨s.inputs, s.outputs⟩
  | .backward => ⟨s.outputs, s.inputs⟩

end Problem

end FlowAnalysis
