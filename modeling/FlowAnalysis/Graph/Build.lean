import FlowAnalysis.Graph.Basic

/-!
# Building a graph by commands

A graph is built by a sequence of commands.  An edge may be added only between nodes that are
there; a sequence in which this fails builds no graph.

## Main definitions

- `Graph.Command` — one step of building a graph
- `Graph.execute?` — the graph after one step
- `Graph.answer` — what a step answers
- `Graph.build?` — the graph that a sequence of commands builds

## Design notes

What a step answers is read off the graph before it.  Adjacency lists answer on the way, with the
edge that they found or filed (`Adjacency.addEdge?`); the answers are the same.
-/

namespace FlowAnalysis.Graph

variable {N : Type} [DecidableEq N]

/-- One step of building a graph over nodes `N`. -/
inductive Command (N : Type) where
  | node (n : N)
  | entry (n : N)
  | exit (n : N)
  | edge (e : Edge N)
  deriving DecidableEq

/-- The graph after one step, or nothing if the step adds an edge between absent nodes. -/
def execute? (g : Graph N) : Command N → Option (Graph N)
  | .node n => some (g.addNode n)
  | .entry n => some (g.setEntry n)
  | .exit n => some (g.setExit n)
  | .edge e => g.addEdge? e

/-- What a step of building a graph answers. -/
inductive Answer where
  | done
  /-- Whether the node was new. -/
  | added (isNew : Bool)
  /-- Which edge it is that is there now, by its number. -/
  | edge (number : Nat)
  deriving DecidableEq

/-- What a step answers.  An edge keeps the number that it got when it was added first. -/
def answer (g : Graph N) : Command N → Answer
  | .node n => .added (n ∉ g.nodes)
  | .entry _ | .exit _ => .done
  | .edge e => .edge ((g.edgeNumber? e).getD g.edges.length)

/-- The graph after a sequence of steps. -/
def extend? (g : Graph N) (commands : List (Command N)) : Option (Graph N) :=
  commands.foldlM execute? g

/-- The graph that a sequence of commands builds. -/
def build? (commands : List (Command N)) : Option (Graph N) := extend? ∅ commands

/-- The command that builds the graph with all edges reversed, and with entry and exit
exchanged. -/
def Command.reverse : Command N → Command N
  | .node n => .node n
  | .entry n => .exit n
  | .exit n => .entry n
  | .edge e => .edge e.reverse

end FlowAnalysis.Graph
