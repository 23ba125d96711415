import FlowAnalysis.Graph.Build
import FlowAnalysis.Graph.Direction
import Mathlib.Data.List.Nodup

/-!
# Reversed graphs

Reversing a graph turns all its edges round and exchanges entry and exit.  The order of the nodes
stays, and so does the order of the edges at a node: reversed commands build the reversed graph.

## Main definitions

- `Graph.reverse` — the graph with all edges turned round

## Main statements

- `Graph.inEdges_reverse`, `Graph.outEdges_reverse` — incoming and outgoing edges change places
- `Graph.build?_map_reverse` — the graph that reversed commands build
- `Direction.arriving_reverse`, `Direction.leaving_reverse` — against a reversed graph the flow is
  what it was
-/

namespace FlowAnalysis

variable {N : Type}

def Slot.reverse (s : Slot N) : Slot N where
  node := s.node
  ins := s.outs.map Edge.reverse
  outs := s.ins.map Edge.reverse

theorem Edge.reverse_injective : Function.Injective (Edge.reverse (N := N)) :=
  Function.LeftInverse.injective Edge.reverse_reverse

theorem map_node_reverse (ss : List (Slot N)) :
    (ss.map Slot.reverse).map Slot.node = ss.map Slot.node := by
  simp [Slot.reverse, Function.comp_def]

variable [DecidableEq N]

namespace Graph

variable {g : Graph N} {e : Edge N} {n : N}

/-- The graph with all edges turned round, and with entry and exit exchanged. -/
def reverse (g : Graph N) : Graph N where
  slots := g.slots.map Slot.reverse
  edges := g.edges.map Edge.reverse
  entry? := g.exit?
  exit? := g.entry?
  nodes_nodup := by rw [map_node_reverse]; exact g.nodes_nodup
  edges_nodup := g.edges_nodup.map Edge.reverse_injective
  ins_eq := by
    intro s hs
    obtain ⟨t, ht, rfl⟩ := List.mem_map.mp hs
    show t.outs.map Edge.reverse = _
    rw [g.outs_eq t ht, List.filter_map]
    rfl
  outs_eq := by
    intro s hs
    obtain ⟨t, ht, rfl⟩ := List.mem_map.mp hs
    show t.ins.map Edge.reverse = _
    rw [g.ins_eq t ht, List.filter_map]
    rfl
  source_mem := by
    intro e he
    obtain ⟨d, hd, rfl⟩ := List.mem_map.mp he
    rw [map_node_reverse]
    exact g.target_mem d hd
  target_mem := by
    intro e he
    obtain ⟨d, hd, rfl⟩ := List.mem_map.mp he
    rw [map_node_reverse]
    exact g.source_mem d hd
  entry_mem := by rw [map_node_reverse]; exact g.exit_mem
  exit_mem := by rw [map_node_reverse]; exact g.entry_mem

@[simp]
theorem nodes_reverse (g : Graph N) : g.reverse.nodes = g.nodes := map_node_reverse g.slots

@[simp]
theorem mem_edges_reverse : e.reverse ∈ g.reverse.edges ↔ e ∈ g.edges := by
  exact List.mem_map_of_injective Edge.reverse_injective

theorem inEdges_reverse (g : Graph N) (n : N) :
    g.reverse.inEdges n = (g.outEdges n).map Edge.reverse := by
  rw [inEdges_eq_filter, outEdges_eq_filter, reverse, List.filter_map]
  rfl

theorem outEdges_reverse (g : Graph N) (n : N) :
    g.reverse.outEdges n = (g.inEdges n).map Edge.reverse := by
  rw [inEdges_eq_filter, outEdges_eq_filter, reverse, List.filter_map]
  rfl

/-! ## Reversed commands -/

attribute [ext] Graph

theorem reverse_addNode (g : Graph N) (n : N) : (g.addNode n).reverse = g.reverse.addNode n := by
  by_cases h : n ∈ g.nodes
  · have h' : n ∈ g.reverse.nodes := by rwa [nodes_reverse]
    rw [addNode, addNode, dif_pos h, dif_pos h']
  · have h' : n ∉ g.reverse.nodes := by rwa [nodes_reverse]
    rw [addNode, addNode, dif_neg h, dif_neg h']
    ext1 <;> simp [reverse, Slot.reverse]

theorem reverse_setEntry (g : Graph N) (n : N) : (g.setEntry n).reverse = g.reverse.setExit n := by
  have h := reverse_addNode g n
  ext1
  · exact (congrArg slots h :)
  · exact (congrArg edges h :)
  · exact (congrArg entry? h :)
  · rfl

theorem reverse_setExit (g : Graph N) (n : N) : (g.setExit n).reverse = g.reverse.setEntry n := by
  have h := reverse_addNode g n
  ext1
  · exact (congrArg slots h :)
  · exact (congrArg edges h :)
  · rfl
  · exact (congrArg exit? h :)

theorem reverse_attach (e : Edge N) (s : Slot N) :
    (Slot.attach e s).reverse = Slot.attach e.reverse s.reverse := by
  unfold Slot.attach Slot.reverse Edge.reverse
  by_cases hs : e.source = s.node <;> by_cases ht : e.target = s.node <;> simp [hs, ht]

theorem reverse_addEdge (g : Graph N) (e : Edge N) (hs : e.source ∈ g.nodes)
    (ht : e.target ∈ g.nodes) (hs' : e.reverse.source ∈ g.reverse.nodes)
    (ht' : e.reverse.target ∈ g.reverse.nodes) :
    (g.addEdge e hs ht).reverse = g.reverse.addEdge e.reverse hs' ht' := by
  have hmem : e.reverse ∈ g.reverse.outEdges e.reverse.source ↔ e ∈ g.outEdges e.source := by
    simp [mem_outEdges]
  by_cases h : e ∈ g.outEdges e.source
  · rw [addEdge, addEdge, dif_pos h, dif_pos (hmem.mpr h)]
  · rw [addEdge, addEdge, dif_neg h, dif_neg (mt hmem.mp h)]
    -- The edge is filed at both of its ends, with the two sides of the slots exchanged.
    ext1
    · show (g.slots.map (Slot.attach e)).map Slot.reverse =
        (g.slots.map Slot.reverse).map (Slot.attach e.reverse)
      rw [List.map_map, List.map_map]
      exact List.map_congr_left fun s _ => reverse_attach e s
    · exact List.map_append
    · rfl
    · rfl

theorem reverse_addEdge? (g : Graph N) (e : Edge N) :
    (g.addEdge? e).map reverse = g.reverse.addEdge? e.reverse := by
  by_cases h : e.source ∈ g.nodes ∧ e.target ∈ g.nodes
  · have h' : e.reverse.source ∈ g.reverse.nodes ∧ e.reverse.target ∈ g.reverse.nodes := by
      rw [nodes_reverse]
      exact h.symm
    rw [addEdge?, addEdge?, dif_pos h, dif_pos h', Option.map_some, reverse_addEdge]
  · have h' : ¬ (e.reverse.source ∈ g.reverse.nodes ∧ e.reverse.target ∈ g.reverse.nodes) := by
      rw [nodes_reverse]
      exact mt And.symm h
    rw [addEdge?, addEdge?, dif_neg h, dif_neg h', Option.map_none]

theorem execute?_reverse (g : Graph N) (c : Command N) :
    g.reverse.execute? c.reverse = (g.execute? c).map reverse := by
  cases c with
  | node n => exact congrArg some (reverse_addNode g n).symm
  | entry n => exact congrArg some (reverse_setEntry g n).symm
  | exit n => exact congrArg some (reverse_setExit g n).symm
  | edge e => exact (reverse_addEdge? g e).symm

theorem extend?_reverse (g : Graph N) (cs : List (Command N)) :
    g.reverse.extend? (cs.map Command.reverse) = (g.extend? cs).map reverse := by
  induction cs generalizing g with
  | nil => rfl
  | cons c cs ih =>
    rw [extend?, extend?, List.map_cons, List.foldlM_cons, List.foldlM_cons, execute?_reverse]
    cases g.execute? c with
    | none => rfl
    | some g' => exact ih g'

/-- Reversed commands build the reversed graph, if the commands build a graph at all. -/
theorem build?_map_reverse (cs : List (Command N)) :
    build? (cs.map Command.reverse) = (build? cs).map reverse := by
  have hempty : (∅ : Graph N).reverse = ∅ := rfl
  unfold build?
  rw [← extend?_reverse, hempty]

end Graph

/-! ## Reversed flow -/

namespace Direction

omit [DecidableEq N] in
theorem tail_reverse (d : Direction) (e : Edge N) : d.reverse.tail e.reverse = d.tail e := by
  cases d <;> rfl

omit [DecidableEq N] in
theorem head_reverse (d : Direction) (e : Edge N) : d.reverse.head e.reverse = d.head e := by
  cases d <;> rfl

theorem start?_reverse (d : Direction) (g : Graph N) : d.reverse.start? g.reverse = d.start? g := by
  cases d <;> rfl

theorem arriving_reverse (d : Direction) (g : Graph N) (n : N) :
    d.reverse.arriving g.reverse n = (d.arriving g n).map Edge.reverse := by
  cases d
  · exact g.outEdges_reverse n
  · exact g.inEdges_reverse n

theorem leaving_reverse (d : Direction) (g : Graph N) (n : N) :
    d.reverse.leaving g.reverse n = (d.leaving g n).map Edge.reverse := by
  cases d
  · exact g.inEdges_reverse n
  · exact g.outEdges_reverse n

end Direction

end FlowAnalysis
