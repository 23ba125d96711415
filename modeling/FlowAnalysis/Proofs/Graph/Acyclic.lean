import FlowAnalysis.Graph.Direction
import Mathlib.Data.Finset.Card
import Mathlib.Data.List.Basic
import Mathlib.Logic.Relation

/-!
# Graphs without cycles

If no way along the edges leads back to its first node, then the nodes can be put into an order in
which every edge leads on.  A straight line is the simplest case.

## Main definitions

- `Graph.Acyclic` — no way leads back
- `Graph.depth` — how many nodes lead to a node
- `Direction.Ranks` — numbers that grow along all edges
- `Direction.Sorts` — the nodes in an order in which every edge leads on
- `Graph.StraightLine` — every node leads to the next one, and to no other

## Main statements

- `Graph.Acyclic.exists_ranks` — the nodes of an acyclic graph have ranks
- `Graph.Acyclic.exists_sorts` — the nodes of an acyclic graph can be sorted
-/

namespace FlowAnalysis

variable {N : Type} [DecidableEq N] {g : Graph N} {d : Direction} {a b n : N} {l r : List N}

namespace Graph

/-- There is an edge from one node to another. -/
def Adjacent (g : Graph N) (a b : N) : Prop := ∃ e ∈ g.edges, e.source = a ∧ e.target = b

theorem mem_predecessors : a ∈ g.predecessors b ↔ g.Adjacent a b := by
  simp [predecessors, mem_inEdges, Adjacent, and_assoc, and_comm]

/-- No way along the edges, of one edge or more, leads from a node back to it. -/
def Acyclic (g : Graph N) : Prop := ∀ n, ¬ Relation.TransGen g.Adjacent n n

/-- A graph has no cycle if its nodes have numbers that grow along all edges. -/
theorem acyclic_of_lt (rank : N → Nat) (h : ∀ a b, g.Adjacent a b → rank a < rank b) :
    g.Acyclic := by
  have hway : ∀ a b, Relation.TransGen g.Adjacent a b → rank a < rank b := by
    intro a b hab
    induction hab with
    | single hab => exact h _ _ hab
    | tail _ hab ih => exact ih.trans (h _ _ hab)
  exact fun n hn => Nat.lt_irrefl _ (hway n n hn)

open Classical in
/-- The number of nodes from which a way leads to a node. -/
noncomputable def depth (g : Graph N) (n : N) : Nat :=
  (g.nodes.toFinset.filter fun m => Relation.TransGen g.Adjacent m n).card

theorem depth_le (g : Graph N) (n : N) : g.depth n ≤ g.nodes.length := by
  classical
  exact (Finset.card_filter_le _ _).trans (List.toFinset_card_le g.nodes)

theorem Acyclic.depth_lt_depth (h : g.Acyclic) (hab : g.Adjacent a b) : g.depth a < g.depth b := by
  classical
  obtain ⟨e, he, rfl, rfl⟩ := id hab
  apply Finset.card_lt_card
  refine ⟨?_, fun hsub => ?_⟩
  · intro m hm
    obtain ⟨hnode, hway⟩ := Finset.mem_filter.mp hm
    exact Finset.mem_filter.mpr ⟨hnode, hway.tail hab⟩
  · -- The source of the edge leads to its target, but not back to itself.
    have hnode : e.source ∈ g.nodes.toFinset := List.mem_toFinset.mpr (g.source_mem e he)
    have hself := hsub (Finset.mem_filter.mpr ⟨hnode, .single hab⟩)
    exact h e.source (Finset.mem_filter.mp hself).2

end Graph

/-! ## Ranks -/

/-- Numbers of the nodes, none of them above the number of nodes, that grow along every edge in the
direction of the flow. -/
structure Direction.Ranks (d : Direction) (g : Graph N) (rank : N → Nat) : Prop where
  le_length : ∀ n, rank n ≤ g.nodes.length
  lt_of_edge : ∀ e ∈ g.edges, rank (d.tail e) < rank (d.head e)

theorem Graph.Acyclic.exists_ranks (h : g.Acyclic) (d : Direction) : ∃ rank, d.Ranks g rank := by
  have hlt : ∀ e ∈ g.edges, g.depth e.source < g.depth e.target :=
    fun e he => h.depth_lt_depth ⟨e, he, rfl, rfl⟩
  cases d with
  | forward => exact ⟨g.depth, g.depth_le, hlt⟩
  | backward =>
    refine ⟨fun n => g.nodes.length - g.depth n, fun n => Nat.sub_le _ _, fun e he => ?_⟩
    have hle := g.depth_le e.target
    have hdepth := hlt e he
    show g.nodes.length - g.depth e.target < g.nodes.length - g.depth e.source
    omega

/-! ## Sorting -/

/-- A list of the nodes in which no edge leads from a later node to an earlier one. -/
structure Direction.Sorts (d : Direction) (g : Graph N) (order : List N) : Prop where
  perm : order.Perm g.nodes
  not_back : order.Pairwise fun a b => ∀ e ∈ g.edges, ¬ (d.tail e = b ∧ d.head e = a)

namespace Graph

theorem Acyclic.exists_sorts (h : g.Acyclic) (d : Direction) : ∃ order, d.Sorts g order := by
  obtain ⟨rank, hrank⟩ := h.exists_ranks d
  refine ⟨g.nodes.mergeSort (rank · ≤ rank ·), List.mergeSort_perm _ _, ?_⟩
  refine (List.pairwise_mergeSort (by simp; omega) (by simp; omega) g.nodes).imp ?_
  rintro a b hab e he ⟨rfl, rfl⟩
  have hlt := hrank.lt_of_edge e he
  have hle : rank (d.head e) ≤ rank (d.tail e) := by simpa using hab
  omega

/-- Where the nodes are sorted, facts come to a node from earlier nodes only. -/
theorem Acyclic.tail_mem (h : g.Acyclic) (hs : d.Sorts g (l ++ n :: r)) {e : Edge N}
    (he : e ∈ d.arriving g n) : d.tail e ∈ l := by
  obtain ⟨hmem, hhead⟩ := Direction.mem_arriving.mp he
  have hnode : d.tail e ∈ l ++ n :: r := hs.perm.mem_iff.mpr (d.tail_mem hmem)
  obtain hl | hn := List.mem_append.mp hnode
  · exact hl
  · obtain hn | hr := List.mem_cons.mp hn
    · obtain ⟨rank, hrank⟩ := h.exists_ranks d
      have hlt := hrank.lt_of_edge e hmem
      rw [hn, hhead] at hlt
      exact absurd hlt (Nat.lt_irrefl _)
    · obtain ⟨-, hpair, -⟩ := List.pairwise_append.mp hs.not_back
      exact absurd ⟨rfl, hhead⟩ ((List.pairwise_cons.mp hpair).1 _ hr e hmem)

/-! ## Straight lines -/

/-- The nodes stand in a line that starts at the entry: each has edges to the next one, and to no
other. -/
structure StraightLine (g : Graph N) (line : List N) : Prop where
  perm : g.nodes.Perm line
  adjacent_iff : ∀ a b, g.Adjacent a b ↔ [a, b] <:+: line
  entry_eq : g.entry? = line.head?

namespace StraightLine

variable {line : List N}

theorem nodup (h : g.StraightLine line) : line.Nodup := h.perm.nodup_iff.mp g.nodes_nodup

theorem entry_ne (h : g.StraightLine (l ++ a :: n :: r)) : g.entry? ≠ some n := by
  have hnodup := h.nodup
  rw [h.entry_eq]
  cases l <;> grind

/-- On a line, only the node before it leads to a node. -/
theorem adjacent_iff_eq (h : g.StraightLine (l ++ a :: n :: r)) : g.Adjacent b n ↔ b = a := by
  rw [h.adjacent_iff]
  constructor
  · rintro ⟨s, t, hline⟩
    have hassoc : (l ++ [a]) ++ n :: r = (s ++ [b]) ++ n :: t := by simpa using hline.symm
    -- The node stands in the line once, so what stands before it is the same list.
    have hnodup := h.nodup
    have hleft : n ∉ l ++ [a] := by grind
    have hright : n ∉ r := by grind
    have hsame := ((List.append_cons_inj_of_notMem hleft hright).mp hassoc).1
    exact (List.singleton_inj.mp (List.append_inj' hsame rfl).2).symm
  · rintro rfl
    exact ⟨l, r, by simp⟩

theorem acyclic (h : g.StraightLine line) : g.Acyclic := by
  apply acyclic_of_lt line.idxOf
  intro a b hab
  obtain ⟨s, t, rfl⟩ := (h.adjacent_iff a b).mp hab
  have hnodup := h.nodup
  grind

end StraightLine

end Graph

end FlowAnalysis
