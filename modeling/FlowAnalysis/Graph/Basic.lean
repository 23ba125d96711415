import FlowAnalysis.Graph.Edge

/-!
# Control-flow graphs

A graph keeps, for each node, the edges that end and the edges that start there.  Nodes and edges
are kept in the order in which they were added, and adding one that is there already changes
nothing.

## Main definitions

- `Graph` — control-flow graphs over nodes `N`
- `Graph.nodes`, `Graph.inEdges`, `Graph.outEdges` — what a graph is read by
- `Graph.addNode`, `Graph.setEntry`, `Graph.setExit`, `Graph.addEdge?` — what it is built by

## Design notes

The edges of a node are stored with the node, so that finding them needs no search through the
graph.  The proof fields of `Graph` say that the two stores of every edge and the list of all edges
agree; `Graph.inEdges_eq_filter` and `Graph.outEdges_eq_filter` read the edges of a node off the
list of all edges.
-/

namespace FlowAnalysis

/-- A node's place in a graph: the node, the edges that end there and the edges that start there,
the oldest first. -/
structure Slot (N : Type) where
  node : N
  ins : List (Edge N)
  outs : List (Edge N)

/-- A control-flow graph over nodes `N`. -/
structure Graph (N : Type) [DecidableEq N] where
  /-- The nodes with their edges, in the order in which the nodes were added. -/
  slots : List (Slot N)
  /-- All edges, in the order in which they were added. -/
  edges : List (Edge N)
  entry? : Option N
  exit? : Option N
  nodes_nodup : (slots.map Slot.node).Nodup
  edges_nodup : edges.Nodup
  ins_eq : ∀ s ∈ slots, s.ins = edges.filter (·.target = s.node)
  outs_eq : ∀ s ∈ slots, s.outs = edges.filter (·.source = s.node)
  source_mem : ∀ e ∈ edges, e.source ∈ slots.map Slot.node
  target_mem : ∀ e ∈ edges, e.target ∈ slots.map Slot.node
  entry_mem : ∀ n, entry? = some n → n ∈ slots.map Slot.node
  exit_mem : ∀ n, exit? = some n → n ∈ slots.map Slot.node

namespace Graph

variable {N : Type} [DecidableEq N]

def empty : Graph N where
  slots := []
  edges := []
  entry? := none
  exit? := none
  nodes_nodup := List.nodup_nil
  edges_nodup := List.nodup_nil
  ins_eq := by simp
  outs_eq := by simp
  source_mem := by simp
  target_mem := by simp
  entry_mem := by simp
  exit_mem := by simp

instance : EmptyCollection (Graph N) := ⟨empty⟩

instance : Inhabited (Graph N) := ⟨empty⟩

/-! ## Reading a graph -/

/-- The nodes, in the order in which they were added. -/
def nodes (g : Graph N) : List N := g.slots.map Slot.node

def slot? (g : Graph N) (n : N) : Option (Slot N) := g.slots.find? (·.node = n)

/-- The edges that end at a node, the oldest first. -/
def inEdges (g : Graph N) (n : N) : List (Edge N) := (g.slot? n).elim [] Slot.ins

/-- The edges that start at a node, the oldest first. -/
def outEdges (g : Graph N) (n : N) : List (Edge N) := (g.slot? n).elim [] Slot.outs

/-- The nodes that a node is reached from, once for each edge. -/
def predecessors (g : Graph N) (n : N) : List N := (g.inEdges n).map Edge.source

/-- The nodes that are reached from a node, once for each edge. -/
def successors (g : Graph N) (n : N) : List N := (g.outEdges n).map Edge.target

def isEntry (g : Graph N) (n : N) : Bool := g.entry? = some n

def isExit (g : Graph N) (n : N) : Bool := g.exit? = some n

/-- The number of an edge: how many edges were added before it. -/
def edgeNumber? (g : Graph N) (e : Edge N) : Option Nat := g.edges.idxOf? e

theorem slot?_eq_some {g : Graph N} {n : N} (h : n ∈ g.nodes) :
    ∃ s ∈ g.slots, g.slot? n = some s ∧ s.node = n := by
  obtain ⟨s, hs, hn⟩ := List.mem_map.mp h
  cases hf : g.slot? n with
  | none => exact absurd (List.find?_eq_none.mp hf s hs) (by simp [hn])
  | some t =>
    exact ⟨t, List.mem_of_find?_eq_some hf, rfl, by simpa using List.find?_some hf⟩

theorem slot?_eq_none {g : Graph N} {n : N} (h : n ∉ g.nodes) : g.slot? n = none := by
  refine List.find?_eq_none.mpr fun s hs => ?_
  intro hn
  exact h (List.mem_map.mpr ⟨s, hs, by simpa using hn⟩)

/-- The edges that end at a node are the edges of the graph with that target, in their order. -/
theorem inEdges_eq_filter (g : Graph N) (n : N) :
    g.inEdges n = g.edges.filter (·.target = n) := by
  by_cases h : n ∈ g.nodes
  · obtain ⟨s, hs, hf, rfl⟩ := slot?_eq_some h
    simp only [inEdges, hf, Option.elim_some]
    exact g.ins_eq s hs
  · simp only [inEdges, slot?_eq_none h, Option.elim_none]
    refine (List.filter_eq_nil_iff.mpr fun e he ht => h ?_).symm
    have ht : e.target = n := by simpa using ht
    exact ht ▸ g.target_mem e he

/-- The edges that start at a node are the edges of the graph with that source, in their
order. -/
theorem outEdges_eq_filter (g : Graph N) (n : N) :
    g.outEdges n = g.edges.filter (·.source = n) := by
  by_cases h : n ∈ g.nodes
  · obtain ⟨s, hs, hf, rfl⟩ := slot?_eq_some h
    simp only [outEdges, hf, Option.elim_some]
    exact g.outs_eq s hs
  · simp only [outEdges, slot?_eq_none h, Option.elim_none]
    refine (List.filter_eq_nil_iff.mpr fun e he ht => h ?_).symm
    have ht : e.source = n := by simpa using ht
    exact ht ▸ g.source_mem e he

theorem mem_inEdges {g : Graph N} {n : N} {e : Edge N} :
    e ∈ g.inEdges n ↔ e ∈ g.edges ∧ e.target = n := by
  simp [inEdges_eq_filter]

theorem mem_outEdges {g : Graph N} {n : N} {e : Edge N} :
    e ∈ g.outEdges n ↔ e ∈ g.edges ∧ e.source = n := by
  simp [outEdges_eq_filter]

/-! ## Building a graph -/

/-- Adds a node without edges at the end; a node that is there already stays where it is. -/
def addNode (g : Graph N) (n : N) : Graph N :=
  if h : n ∈ g.nodes then g else
  { g with
    slots := g.slots ++ [⟨n, [], []⟩]
    nodes_nodup := by
      have hn : ∀ a ∈ g.nodes, a ≠ n := fun a ha han => h (han ▸ ha)
      rw [List.map_append, List.map_singleton, List.nodup_append]
      exact ⟨g.nodes_nodup, by simp, fun a ha b hb => List.mem_singleton.mp hb ▸ hn a ha⟩
    ins_eq := by
      intro s hs
      obtain hs | hs := List.mem_append.mp hs
      · exact g.ins_eq s hs
      · obtain rfl := List.mem_singleton.mp hs
        rw [← inEdges_eq_filter, inEdges, slot?_eq_none h, Option.elim_none]
    outs_eq := by
      intro s hs
      obtain hs | hs := List.mem_append.mp hs
      · exact g.outs_eq s hs
      · obtain rfl := List.mem_singleton.mp hs
        rw [← outEdges_eq_filter, outEdges, slot?_eq_none h, Option.elim_none]
    source_mem := fun e he => by simpa using Or.inl (by simpa using g.source_mem e he)
    target_mem := fun e he => by simpa using Or.inl (by simpa using g.target_mem e he)
    entry_mem := fun m hm => by simpa using Or.inl (by simpa using g.entry_mem m hm)
    exit_mem := fun m hm => by simpa using Or.inl (by simpa using g.exit_mem m hm) }

theorem nodes_addNode (g : Graph N) (n : N) :
    (g.addNode n).nodes = if n ∈ g.nodes then g.nodes else g.nodes ++ [n] := by
  unfold addNode
  split
  · rfl
  · simp [nodes]

theorem mem_nodes_addNode (g : Graph N) (n : N) : n ∈ (g.addNode n).nodes := by
  rw [nodes_addNode]
  split <;> simp [*]

/-- Makes a node the entry; it is added if it is not there.  A graph is meant to get an entry only
once, which builds that check their assertions insist on; without them a later entry takes the place
of an earlier one, and this is what is defined here. -/
def setEntry (g : Graph N) (n : N) : Graph N :=
  { g.addNode n with
    entry? := some n
    entry_mem := fun _ hm => Option.some.inj hm ▸ mem_nodes_addNode g n }

/-- Makes a node the exit; it is added if it is not there.  As with the entry, a second exit is
refused where assertions are checked, and elsewhere takes the place of the first. -/
def setExit (g : Graph N) (n : N) : Graph N :=
  { g.addNode n with
    exit? := some n
    exit_mem := fun _ hm => Option.some.inj hm ▸ mem_nodes_addNode g n }

/-- Files an edge at a node: among the edges that end there, among those that start there, or
both. -/
def Slot.attach (e : Edge N) (s : Slot N) : Slot N :=
  { s with
    ins := if e.target = s.node then s.ins ++ [e] else s.ins
    outs := if e.source = s.node then s.outs ++ [e] else s.outs }

theorem map_node_attach (e : Edge N) (ss : List (Slot N)) :
    (ss.map (Slot.attach e)).map Slot.node = ss.map Slot.node := by
  simp [Slot.attach, Function.comp_def]

/-- Adds an edge between two nodes of the graph at the end; an edge that starts at the same node,
ends at the same node and has the same kind as an earlier one is that edge. -/
def addEdge (g : Graph N) (e : Edge N) (hs : e.source ∈ g.nodes) (ht : e.target ∈ g.nodes) :
    Graph N :=
  if h : e ∈ g.outEdges e.source then g else
  { g with
    slots := g.slots.map (Slot.attach e)
    edges := g.edges ++ [e]
    nodes_nodup := by rw [map_node_attach]; exact g.nodes_nodup
    edges_nodup := by
      have hn : ∀ d ∈ g.edges, d ≠ e := fun d hd hde => h (mem_outEdges.mpr ⟨hde ▸ hd, rfl⟩)
      rw [List.nodup_append]
      exact ⟨g.edges_nodup, by simp, fun d hd b hb => List.mem_singleton.mp hb ▸ hn d hd⟩
    ins_eq := by
      intro s hs
      obtain ⟨t, ht, rfl⟩ := List.mem_map.mp hs
      by_cases hn : e.target = t.node <;> simp [Slot.attach, g.ins_eq t ht, hn]
    outs_eq := by
      intro s hs
      obtain ⟨t, ht, rfl⟩ := List.mem_map.mp hs
      by_cases hn : e.source = t.node <;> simp [Slot.attach, g.outs_eq t ht, hn]
    source_mem := by
      intro d hd
      rw [map_node_attach]
      obtain hd | hd := List.mem_append.mp hd
      · exact g.source_mem d hd
      · exact List.mem_singleton.mp hd ▸ hs
    target_mem := by
      intro d hd
      rw [map_node_attach]
      obtain hd | hd := List.mem_append.mp hd
      · exact g.target_mem d hd
      · exact List.mem_singleton.mp hd ▸ ht
    entry_mem := by rw [map_node_attach]; exact g.entry_mem
    exit_mem := by rw [map_node_attach]; exact g.exit_mem }

/-- Adds an edge if both its ends are nodes of the graph. -/
def addEdge? (g : Graph N) (e : Edge N) : Option (Graph N) :=
  if h : e.source ∈ g.nodes ∧ e.target ∈ g.nodes then some (g.addEdge e h.1 h.2) else none

theorem edges_addEdge (g : Graph N) (e : Edge N) (hs : e.source ∈ g.nodes)
    (ht : e.target ∈ g.nodes) :
    (g.addEdge e hs ht).edges = if e ∈ g.edges then g.edges else g.edges ++ [e] := by
  have hmem : e ∈ g.outEdges e.source ↔ e ∈ g.edges := by simp [mem_outEdges]
  unfold addEdge
  by_cases h : e ∈ g.outEdges e.source
  · simp [h, hmem.mp h]
  · simp [h, mt hmem.mpr h]

theorem nodes_addEdge (g : Graph N) (e : Edge N) (hs : e.source ∈ g.nodes)
    (ht : e.target ∈ g.nodes) : (g.addEdge e hs ht).nodes = g.nodes := by
  unfold addEdge
  split
  · rfl
  · exact map_node_attach e g.slots

end Graph

end FlowAnalysis
