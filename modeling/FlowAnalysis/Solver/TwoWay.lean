import FlowAnalysis.Solver.Checked

/-!
# The solver, direction by direction

The worklist solver written out twice.  Where facts flow along the edges, the fact before a node is
merged from the facts after the sources of its incoming edges, and is passed on to what is after the
node.  Where they flow against the edges, the fact after a node is merged from the facts before the
targets of its outgoing edges, and is passed on to what is before the node.

## Main definitions

- `Progress` — how far a solve has come, with the facts in the order of the program
- `Forward.prepare`, `Forward.visit`, `Forward.solve` — along the edges
- `Backward.prepare`, `Backward.visit`, `Backward.solve` — against the edges
- `TwoWay.solve` — the one of the two that the analysis asks for

## Design notes

What does not depend on the direction is shared: taking nodes off the worklist, asking about an edge
and changing a fact along it, and writing messages.
-/

namespace FlowAnalysis

/-- How far a solve has come, with the facts in the order of the program. -/
structure Progress (N φ : Type) where
  facts : Solution N φ := ∅
  /-- The nodes still to be visited, the next one first. -/
  worklist : List N := []
  ledger : Ledger N := ∅
  visited : Trail N := ∅
  log : Trail Message := ∅

/-- How a solve ends. -/
inductive Ending (N φ : Type) where
  /-- The worklist is empty. -/
  | solved (progress : Progress N φ)
  /-- An error, and the messages kept until then. -/
  | failed (error : SolveError) (log : Trail Message)
  /-- The limit on the number of visits is met. -/
  | unsettled (progress : Progress N φ)

variable {N φ : Type} [DecidableEq N]

namespace TwoWay

/-- Writes those messages to a log that the settings show. -/
def write (p : Problem N φ) (log : Trail Message) (ms : List Message) : Trail Message :=
  log.append (p.shown ms)

/-- The fact at the far end of an edge. -/
def carry (p : Problem N φ) (e : Edge N) (fact : φ) (l : Ledger N) :
    Except SolveError (φ × Ledger N) :=
  match p.consult e l with
  | (false, l) => .ok (fact, l)
  | (true, l) =>
    match p.analysis.edgeTransfer e fact with
    | some fact => .ok (fact, { l with crossed := l.crossed.push e })
    | none => .error (.noEdgeTransfer p.analysis.id)

/-- Puts all nodes on the worklist. -/
def enqueue (p : Problem N φ) (d : Direction) (s : Progress N φ) : Progress N φ :=
  { s with
    worklist := p.graph.nodes
    log := write p s.log [.seeded d p.graph.nodes.length] }

/-- Reports that the worklist is empty. -/
def settle (p : Problem N φ) (s : Progress N φ) : Progress N φ :=
  { s with log := write p s.log [.settled s.visited.size] }

/-- Takes nodes off the worklist and visits them until there are none, but no more of them than the
limit. -/
def drain (p : Problem N φ)
    (visit : Progress N φ → N → Except (Miss N) (Except SolveError (Progress N φ))) :
    Nat → Progress N φ → Except (Miss N) (Ending N φ)
  | limit, s =>
    match s.worklist, limit with
    | [], _ => return .solved (settle p s)
    | _ :: _, 0 => return .unsettled s
    | n :: rest, limit + 1 => do
      match ← visit { s with worklist := rest } n with
      | .ok t => drain p visit limit t
      | .error err => return .failed err s.log

end TwoWay

/-! ## Along the edges -/

namespace Forward

open TwoWay

/-- Records what is known at a node from the start. -/
def seed (p : Problem N φ) (s : Progress N φ) (n : N) : Progress N φ :=
  let s :=
    if p.graph.isEntry n then
      { s with
        facts := s.facts.setBefore n p.analysis.boundary
        log := write p s.log p.analysis.boundaryMessages }
    else
      { s with facts := s.facts.setBefore n p.analysis.initial }
  { s with facts := s.facts.setAfter n p.analysis.initial }

/-- Records what is known from the start, if there is an entry. -/
def prepare (p : Problem N φ) : Except SolveError (Progress N φ) :=
  match p.graph.entry? with
  | some _ => .ok (p.graph.nodes.foldl (seed p) {})
  | none => .error (.noStart .forward)

/-- Merges the facts after the sources of edges into a fact, one edge after the other. -/
def gather (p : Problem N φ) (after : Table N φ) :
    List (Edge N) → φ → Ledger N → Except (Miss N) (Except SolveError (φ × Ledger N))
  | [], before, l => return .ok (before, l)
  | e :: es, before, l => do
    match carry p e (← Checked.factAt after e.source) l with
    | .ok (fact, l) => gather p after es (p.analysis.merge fact before) l
    | .error err => return .error err

/-- Passes the fact before a node through it; if that changes the fact after the node, the targets
of its outgoing edges are to be visited. -/
def pass (p : Problem N φ) (s : Progress N φ) (n : N) : Except (Miss N) (Progress N φ) := do
  let before ← Checked.factAt s.facts.before n
  let after ← Checked.factAt s.facts.after n
  let t := p.analysis.transfer n before after
  let s := { s with
    facts := s.facts.setAfter n t.fact
    visited := s.visited.push n
    log := write p s.log t.messages }
  if t.changed then
    let es ← Checked.outEdges p.graph n
    return { s with
      worklist := s.worklist ++ es.map Edge.target
      log := write p s.log [.requeued .forward es.length] }
  else
    return s

variable [DecidableEq φ]

/-- Merges the fact before a node anew, except at the entry, and records it if it is another. -/
def receive (p : Problem N φ) (s : Progress N φ) (n : N) :
    Except (Miss N) (Except SolveError (Progress N φ)) := do
  if p.graph.isEntry n then return .ok s
  match ← gather p s.facts.after (← Checked.inEdges p.graph n) p.analysis.initial s.ledger with
  | .ok (before, ledger) =>
    let recorded ← Checked.factAt s.facts.before n
    let facts := if before = recorded then s.facts else s.facts.setBefore n before
    return .ok { s with facts, ledger }
  | .error err => return .error err

def visit (p : Problem N φ) (s : Progress N φ) (n : N) :
    Except (Miss N) (Except SolveError (Progress N φ)) := do
  match ← receive p s n with
  | .ok s => return .ok (← pass p s n)
  | .error err => return .error err

/-- Solves a problem along the edges, with no more visits than the limit. -/
def solve (p : Problem N φ) (limit : Nat) : Except (Miss N) (Ending N φ) :=
  match prepare p with
  | .ok s => drain p (visit p) limit (enqueue p .forward s)
  | .error err => return .failed err ∅

end Forward

/-! ## Against the edges -/

namespace Backward

open TwoWay

/-- Records what is known at a node from the start. -/
def seed (p : Problem N φ) (s : Progress N φ) (n : N) : Progress N φ :=
  let s :=
    if p.graph.isExit n then
      { s with
        facts := s.facts.setAfter n p.analysis.boundary
        log := write p s.log p.analysis.boundaryMessages }
    else
      { s with facts := s.facts.setAfter n p.analysis.initial }
  { s with facts := s.facts.setBefore n p.analysis.initial }

/-- Records what is known from the start, if there is an exit. -/
def prepare (p : Problem N φ) : Except SolveError (Progress N φ) :=
  match p.graph.exit? with
  | some _ => .ok (p.graph.nodes.foldl (seed p) {})
  | none => .error (.noStart .backward)

/-- Merges the facts before the targets of edges into a fact, one edge after the other. -/
def gather (p : Problem N φ) (before : Table N φ) :
    List (Edge N) → φ → Ledger N → Except (Miss N) (Except SolveError (φ × Ledger N))
  | [], after, l => return .ok (after, l)
  | e :: es, after, l => do
    match carry p e (← Checked.factAt before e.target) l with
    | .ok (fact, l) => gather p before es (p.analysis.merge fact after) l
    | .error err => return .error err

/-- Passes the fact after a node through it; if that changes the fact before the node, the sources
of its incoming edges are to be visited. -/
def pass (p : Problem N φ) (s : Progress N φ) (n : N) : Except (Miss N) (Progress N φ) := do
  let after ← Checked.factAt s.facts.after n
  let before ← Checked.factAt s.facts.before n
  let t := p.analysis.transfer n after before
  let s := { s with
    facts := s.facts.setBefore n t.fact
    visited := s.visited.push n
    log := write p s.log t.messages }
  if t.changed then
    let es ← Checked.inEdges p.graph n
    return { s with
      worklist := s.worklist ++ es.map Edge.source
      log := write p s.log [.requeued .backward es.length] }
  else
    return s

variable [DecidableEq φ]

/-- Merges the fact after a node anew, except at the exit, and records it if it is another. -/
def receive (p : Problem N φ) (s : Progress N φ) (n : N) :
    Except (Miss N) (Except SolveError (Progress N φ)) := do
  if p.graph.isExit n then return .ok s
  match ← gather p s.facts.before (← Checked.outEdges p.graph n) p.analysis.initial s.ledger with
  | .ok (after, ledger) =>
    let recorded ← Checked.factAt s.facts.after n
    let facts := if after = recorded then s.facts else s.facts.setAfter n after
    return .ok { s with facts, ledger }
  | .error err => return .error err

def visit (p : Problem N φ) (s : Progress N φ) (n : N) :
    Except (Miss N) (Except SolveError (Progress N φ)) := do
  match ← receive p s n with
  | .ok s => return .ok (← pass p s n)
  | .error err => return .error err

/-- Solves a problem against the edges, with no more visits than the limit. -/
def solve (p : Problem N φ) (limit : Nat) : Except (Miss N) (Ending N φ) :=
  match prepare p with
  | .ok s => drain p (visit p) limit (enqueue p .backward s)
  | .error err => return .failed err ∅

end Backward

/-- Solves a problem in the direction of its analysis. -/
def TwoWay.solve [DecidableEq φ] (p : Problem N φ) (limit : Nat) :
    Except (Miss N) (Ending N φ) :=
  match p.direction with
  | .forward => Forward.solve p limit
  | .backward => Backward.solve p limit

end FlowAnalysis
