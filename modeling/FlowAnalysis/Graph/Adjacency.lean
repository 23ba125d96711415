import FlowAnalysis.Graph.Build
import FlowAnalysis.Table

/-!
# Adjacency lists

A control-flow graph in the form in which it is kept.  Nodes stand in a list, and an index says at
which place; edges stand in another list, and two lists of adjacency lists, by the places of the
nodes, say which edges end and which start at a node.  An edge is referred to by its number.

## Main definitions

- `Adjacency` — a graph with an index of its nodes and with adjacency lists
- `Adjacency.addNode`, `Adjacency.addEdge?` — what it is built by, with what they answer
- `Adjacency.execute?`, `Adjacency.build?` — building it by commands
- `Adjacency.inEdges?`, `Adjacency.outEdges?` — the edges at a node

## Design notes

Adding an edge looks through the edges that start at its source, and answers with the one that it
finds or with the one that it adds.  Every lookup may find nothing; for a node of the graph none
does.
-/

namespace FlowAnalysis

/-- A control-flow graph with an index of its nodes and with adjacency lists. -/
structure Adjacency (N : Type) where
  /-- The nodes, in the order in which they were added. -/
  nodes : List N := []
  /-- The place of each node among the nodes. -/
  places : Table N Nat := ∅
  /-- All edges, in the order in which they were added. -/
  edges : List (Edge N) := []
  /-- By the place of a node, the numbers of the edges that end there, the oldest first. -/
  ins : List (List Nat) := []
  /-- By the place of a node, the numbers of the edges that start there, the oldest first. -/
  outs : List (List Nat) := []
  entry? : Option N := none
  exit? : Option N := none

namespace Adjacency

variable {N : Type} [DecidableEq N]

/-! ## Reading -/

/-- The edges with given numbers, if there are all of them. -/
def edgesAt? (g : Adjacency N) (ks : List Nat) : Option (List (Edge N)) := ks.mapM (g.edges[·]?)

/-- The edges that end at a node, the oldest first. -/
def inEdges? (g : Adjacency N) (n : N) : Option (List (Edge N)) := do
  let i ← g.places.get? n
  let ks ← g.ins[i]?
  g.edgesAt? ks

/-- The edges that start at a node, the oldest first. -/
def outEdges? (g : Adjacency N) (n : N) : Option (List (Edge N)) := do
  let i ← g.places.get? n
  let ks ← g.outs[i]?
  g.edgesAt? ks

/-! ## Building -/

/-- Adds a node without edges at the end, and answers whether it is new; a node that is there
already stays where it is. -/
def addNode (g : Adjacency N) (n : N) : Bool × Adjacency N :=
  match g.places.get? n with
  | some _ => (false, g)
  | none => (true, { g with
      nodes := g.nodes ++ [n]
      places := g.places.insert n g.nodes.length
      ins := g.ins ++ [[]]
      outs := g.outs ++ [[]] })

/-- Makes a node the entry, in place of an earlier one; it is added if it is not there. -/
def setEntry (g : Adjacency N) (n : N) : Adjacency N := { (g.addNode n).2 with entry? := some n }

/-- Makes a node the exit, in place of an earlier one; it is added if it is not there. -/
def setExit (g : Adjacency N) (n : N) : Adjacency N := { (g.addNode n).2 with exit? := some n }

/-- Adds an edge if both its ends are nodes of the graph, and answers with its number.  An edge that
is found among those that start at the same node is not added again. -/
def addEdge? (g : Adjacency N) (e : Edge N) : Option (Nat × Adjacency N) := do
  let i ← g.places.get? e.source
  let j ← g.places.get? e.target
  let ks ← g.outs[i]?
  match ks.find? fun k => g.edges[k]? = some e with
  | some k => return (k, g)
  | none =>
    let k := g.edges.length
    return (k, { g with
      edges := g.edges ++ [e]
      outs := g.outs.modify i (· ++ [k])
      ins := g.ins.modify j (· ++ [k]) })

/-- What a command answers, and the graph after it; nothing if it adds an edge between absent
nodes. -/
def execute? (g : Adjacency N) : Graph.Command N → Option (Graph.Answer × Adjacency N)
  | .node n => some (.added (g.addNode n).1, (g.addNode n).2)
  | .entry n => some (.done, g.setEntry n)
  | .exit n => some (.done, g.setExit n)
  | .edge e => (g.addEdge? e).map fun (k, h) => (.edge k, h)

/-- What commands answer one after the other, and the graph after them. -/
def extend? (g : Adjacency N) :
    List (Graph.Command N) → Option (List Graph.Answer × Adjacency N)
  | [] => some ([], g)
  | c :: cs => do
    let (a, g) ← g.execute? c
    let (as, g) ← g.extend? cs
    return (a :: as, g)

/-- What the commands that build a graph answer, and the graph. -/
def build? (commands : List (Graph.Command N)) : Option (List Graph.Answer × Adjacency N) :=
  extend? {} commands

end Adjacency

end FlowAnalysis
