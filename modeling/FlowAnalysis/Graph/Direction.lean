import FlowAnalysis.Graph.Basic

/-!
# Directions of flow

Facts flow along the edges of a graph or against them.  Everything that depends on which of the
two it is — where the flow starts, which edges it arrives over and which it leaves over — is said
here once, so that a solver need not know the direction.

## Main definitions

- `Direction` — with the edges, or against them
- `Direction.start?` — the node at which the flow starts
- `Direction.arriving`, `Direction.leaving` — the edges over which a fact comes to a node and goes
  on from there
- `Direction.tail`, `Direction.head` — the end of an edge at which a fact comes on to it, and the
  end at which the fact gets off
-/

namespace FlowAnalysis

/-- Whether facts flow along the edges of a graph or against them. -/
inductive Direction where
  | forward
  | backward
  deriving DecidableEq

namespace Direction

variable {N : Type}

def reverse : Direction → Direction
  | forward => backward
  | backward => forward

def name : Direction → String
  | forward => "forward"
  | backward => "backward"

/-- The end of an edge at which a fact comes on to it. -/
def tail (d : Direction) (e : Edge N) : N :=
  match d with
  | forward => e.source
  | backward => e.target

/-- The end of an edge at which a fact gets off it. -/
def head (d : Direction) (e : Edge N) : N :=
  match d with
  | forward => e.target
  | backward => e.source

variable [DecidableEq N]

/-- The node at which the flow starts, if the graph has one. -/
def start? (d : Direction) (g : Graph N) : Option N :=
  match d with
  | forward => g.entry?
  | backward => g.exit?

/-- The edges over which facts come to a node, the oldest first. -/
def arriving (d : Direction) (g : Graph N) (n : N) : List (Edge N) :=
  match d with
  | forward => g.inEdges n
  | backward => g.outEdges n

/-- The edges over which facts go on from a node, the oldest first. -/
def leaving (d : Direction) (g : Graph N) (n : N) : List (Edge N) :=
  match d with
  | forward => g.outEdges n
  | backward => g.inEdges n

/-- A fact comes to a node over the edges whose head is the node. -/
theorem arriving_eq_filter (d : Direction) (g : Graph N) (n : N) :
    d.arriving g n = g.edges.filter (d.head · = n) := by
  cases d
  · exact g.inEdges_eq_filter n
  · exact g.outEdges_eq_filter n

/-- A fact goes on from a node over the edges whose tail is the node. -/
theorem leaving_eq_filter (d : Direction) (g : Graph N) (n : N) :
    d.leaving g n = g.edges.filter (d.tail · = n) := by
  cases d
  · exact g.outEdges_eq_filter n
  · exact g.inEdges_eq_filter n

theorem mem_arriving {d : Direction} {g : Graph N} {n : N} {e : Edge N} :
    e ∈ d.arriving g n ↔ e ∈ g.edges ∧ d.head e = n := by
  simp [arriving_eq_filter]

theorem mem_leaving {d : Direction} {g : Graph N} {n : N} {e : Edge N} :
    e ∈ d.leaving g n ↔ e ∈ g.edges ∧ d.tail e = n := by
  simp [leaving_eq_filter]

theorem start?_mem {d : Direction} {g : Graph N} {n : N} (h : d.start? g = some n) :
    n ∈ g.nodes := by
  cases d
  · exact g.entry_mem n h
  · exact g.exit_mem n h

/-- Both ends of an edge are nodes of the graph. -/
theorem tail_mem (d : Direction) {g : Graph N} {e : Edge N} (h : e ∈ g.edges) :
    d.tail e ∈ g.nodes := by
  cases d
  · exact g.source_mem e h
  · exact g.target_mem e h

@[inherit_doc tail_mem]
theorem head_mem (d : Direction) {g : Graph N} {e : Edge N} (h : e ∈ g.edges) :
    d.head e ∈ g.nodes := by
  cases d
  · exact g.target_mem e h
  · exact g.source_mem e h

end Direction

end FlowAnalysis
