import FlowAnalysis.Graph.Build
import Mathlib.Algebra.BigOperators.Group.Finset.Basic
import Mathlib.Algebra.Group.Action.Defs
import Mathlib.Algebra.Order.Ring.Nat
import Mathlib.Data.List.Nodup

/-!
# Graphs tell their history

A graph that commands have built says what the commands were, as far as their order and repetitions
do not matter: its nodes are those that were mentioned and its edges those that were added, both in
the order in which they first came.  What is there stays where it is, whatever commands follow.

## Main definitions

- `Graph.mentioned` — the nodes that commands add
- `Graph.Orderly` — commands that add edges only between nodes mentioned before
- `Graph.Tells` — the nodes, edges, entry and exit of a graph are those of its history

## Main statements

- `Graph.tells_of_build?` — the graph that commands build tells their history
- `Graph.edges_prefix_of_extend?` — later commands leave the edges where they are
- `Graph.sum_length_outEdges`, `Graph.sum_length_inEdges` — every edge is filed once at either end
- `Graph.orderly_commands_build` — orderly commands build a graph, and what it tells
-/

namespace FlowAnalysis.Graph

variable {N : Type} [DecidableEq N] {g h : Graph N} {c : Command N} {cs ds : List (Command N)}
  {e : Edge N} {n : N}

/-! ## Histories -/

/-- The node that a command adds. -/
def Command.node? : Command N → Option N
  | .node n | .entry n | .exit n => some n
  | .edge _ => none

/-- The edge that a command adds. -/
def Command.edge? : Command N → Option (Edge N)
  | .edge e => some e
  | .node _ | .entry _ | .exit _ => none

/-- The node that a command makes the entry. -/
def Command.entry? : Command N → Option N
  | .entry n => some n
  | .node _ | .exit _ | .edge _ => none

/-- The node that a command makes the exit. -/
def Command.exit? : Command N → Option N
  | .exit n => some n
  | .node _ | .entry _ | .edge _ => none

/-- The nodes that commands add, once for each command that does so. -/
def mentioned (cs : List (Command N)) : List N := cs.filterMap Command.node?

/-- Edges are added only between nodes that were mentioned before. -/
def Orderly (cs : List (Command N)) : Prop :=
  ∀ before e after, cs = before ++ .edge e :: after →
    e.source ∈ mentioned before ∧ e.target ∈ mentioned before

/-- A graph says which commands there were: which nodes and edges were added, in the order in which
they first came, and which nodes were made the entry and the exit last. -/
structure Tells (g : Graph N) (cs : List (Command N)) : Prop where
  nodes_eq : g.nodes = (mentioned cs).eraseDups
  edges_eq : g.edges = (cs.filterMap Command.edge?).eraseDups
  entry_eq : g.entry? = (cs.filterMap Command.entry?).getLast?
  exit_eq : g.exit? = (cs.filterMap Command.exit?).getLast?

private theorem eraseDups_concat {α : Type} [DecidableEq α] (l : List α) (a : α) :
    (l ++ [a]).eraseDups = if a ∈ l then l.eraseDups else l.eraseDups ++ [a] := by
  rw [List.eraseDups_append, List.removeAll]
  by_cases ha : a ∈ l <;> simp [ha, List.eraseDups_cons]

section Concat

variable {α β : Type} (view : β → Option α) (l : List β) (b : β)

/-- What one more command shows comes at the end, unless it was shown before. -/
private theorem eraseDups_filterMap_concat [DecidableEq α] :
    ((l ++ [b]).filterMap view).eraseDups =
      (view b).elim (l.filterMap view).eraseDups fun a =>
        if a ∈ (l.filterMap view).eraseDups then (l.filterMap view).eraseDups
        else (l.filterMap view).eraseDups ++ [a] := by
  rw [List.filterMap_append]
  cases hb : view b with
  | none => simp [hb]
  | some a =>
    rw [List.filterMap_cons_some hb, List.filterMap_nil, eraseDups_concat, Option.elim_some]
    simp only [List.mem_eraseDups]

private theorem getLast?_filterMap_concat :
    ((l ++ [b]).filterMap view).getLast? = (view b).or (l.filterMap view).getLast? := by
  rw [List.filterMap_append, List.getLast?_append]
  cases hb : view b <;> simp [hb]

end Concat

theorem Tells.mem_nodes (ht : g.Tells cs) : n ∈ g.nodes ↔ n ∈ mentioned cs := by
  rw [ht.nodes_eq, List.mem_eraseDups]

theorem Tells.mem_edges (ht : g.Tells cs) : e ∈ g.edges ↔ e ∈ cs.filterMap Command.edge? := by
  rw [ht.edges_eq, List.mem_eraseDups]

/-! ## One command -/

theorem edges_addNode (g : Graph N) (n : N) : (g.addNode n).edges = g.edges := by
  unfold addNode
  split <;> rfl

theorem entry?_addNode (g : Graph N) (n : N) : Graph.entry? (g.addNode n) = g.entry? := by
  unfold addNode
  split <;> rfl

theorem exit?_addNode (g : Graph N) (n : N) : (g.addNode n).exit? = g.exit? := by
  unfold addNode
  split <;> rfl

theorem entry?_addEdge (g : Graph N) (e : Edge N) (hs : e.source ∈ g.nodes)
    (ht : e.target ∈ g.nodes) : Graph.entry? (g.addEdge e hs ht) = g.entry? := by
  unfold addEdge
  split <;> rfl

theorem exit?_addEdge (g : Graph N) (e : Edge N) (hs : e.source ∈ g.nodes)
    (ht : e.target ∈ g.nodes) : (g.addEdge e hs ht).exit? = g.exit? := by
  unfold addEdge
  split <;> rfl

/-- An edge can be added exactly between nodes that are there. -/
theorem execute?_edge : g.execute? (.edge e) = some h ↔
    ∃ (hs : e.source ∈ g.nodes) (ht : e.target ∈ g.nodes), h = g.addEdge e hs ht := by
  show g.addEdge? e = some h ↔ _
  unfold addEdge?
  split
  · next hmem => simp [hmem, eq_comm]
  · next hmem =>
    rw [not_and] at hmem
    simp only [reduceCtorEq, false_iff]
    rintro ⟨hs, ht, -⟩
    exact hmem hs ht

/-- An edge that is there is not added again. -/
theorem execute?_edge_of_mem (he : e ∈ g.edges) : g.execute? (.edge e) = some g := by
  refine execute?_edge.mpr ⟨g.source_mem e he, g.target_mem e he, ?_⟩
  unfold addEdge
  rw [dif_pos (mem_outEdges.mpr ⟨he, rfl⟩)]

theorem nodes_of_execute? (hc : g.execute? c = some h) :
    h.nodes = c.node?.elim g.nodes fun n => if n ∈ g.nodes then g.nodes else g.nodes ++ [n] := by
  cases c with
  | node n => exact Option.some.inj hc ▸ nodes_addNode g n
  | entry n => exact Option.some.inj hc ▸ nodes_addNode g n
  | exit n => exact Option.some.inj hc ▸ nodes_addNode g n
  | edge e =>
    obtain ⟨hs, ht, rfl⟩ := execute?_edge.mp hc
    exact nodes_addEdge g e hs ht

theorem edges_of_execute? (hc : g.execute? c = some h) :
    h.edges = c.edge?.elim g.edges fun e => if e ∈ g.edges then g.edges else g.edges ++ [e] := by
  cases c with
  | node n => exact Option.some.inj hc ▸ edges_addNode g n
  | entry n => exact Option.some.inj hc ▸ edges_addNode g n
  | exit n => exact Option.some.inj hc ▸ edges_addNode g n
  | edge e =>
    obtain ⟨hs, ht, rfl⟩ := execute?_edge.mp hc
    exact edges_addEdge g e hs ht

theorem entry?_of_execute? (hc : g.execute? c = some h) : h.entry? = c.entry?.or g.entry? := by
  cases c with
  | node n => exact Option.some.inj hc ▸ entry?_addNode g n
  | entry n => exact Option.some.inj hc ▸ rfl
  | exit n => exact Option.some.inj hc ▸ entry?_addNode g n
  | edge e =>
    obtain ⟨hs, ht, rfl⟩ := execute?_edge.mp hc
    exact entry?_addEdge g e hs ht

theorem exit?_of_execute? (hc : g.execute? c = some h) : h.exit? = c.exit?.or g.exit? := by
  cases c with
  | node n => exact Option.some.inj hc ▸ exit?_addNode g n
  | entry n => exact Option.some.inj hc ▸ exit?_addNode g n
  | exit n => exact Option.some.inj hc ▸ rfl
  | edge e =>
    obtain ⟨hs, ht, rfl⟩ := execute?_edge.mp hc
    exact exit?_addEdge g e hs ht

/-- After one more command a graph tells that command too. -/
theorem Tells.execute? (ht : g.Tells cs) (hc : g.execute? c = some h) : h.Tells (cs ++ [c]) where
  nodes_eq := by
    rw [nodes_of_execute? hc, mentioned, eraseDups_filterMap_concat, ht.nodes_eq, mentioned]
  edges_eq := by rw [edges_of_execute? hc, eraseDups_filterMap_concat, ht.edges_eq]
  entry_eq := by rw [entry?_of_execute? hc, getLast?_filterMap_concat, ht.entry_eq]
  exit_eq := by rw [exit?_of_execute? hc, getLast?_filterMap_concat, ht.exit_eq]

/-! ## Sequences of commands -/

theorem build?_append (cs ds : List (Command N)) :
    build? (cs ++ ds) = (build? cs).bind (·.extend? ds) := List.foldlM_append

theorem extend?_cons (g : Graph N) (c : Command N) (cs : List (Command N)) :
    g.extend? (c :: cs) = (g.execute? c).bind (·.extend? cs) := List.foldlM_cons

theorem build?_concat (cs : List (Command N)) (c : Command N) :
    build? (cs ++ [c]) = (build? cs).bind (·.execute? c) := by
  rw [build?_append]
  congr 1
  funext g
  rw [extend?_cons]
  exact Option.bind_fun_some _

/-- The graph that commands build tells their history. -/
theorem tells_of_build? (hg : build? cs = some g) : g.Tells cs := by
  induction cs using List.reverseRecOn generalizing g with
  | nil =>
    obtain rfl : ∅ = g := Option.some.inj hg
    exact ⟨rfl, rfl, rfl, rfl⟩
  | append_singleton cs c ih =>
    rw [build?_concat] at hg
    obtain ⟨g₀, hg₀, hc⟩ := Option.bind_eq_some_iff.mp hg
    exact (ih hg₀).execute? hc

omit [DecidableEq N] in
theorem Orderly.of_append (ho : Orderly (cs ++ ds)) : Orderly cs := by
  intro before e after h
  exact ho before e (after ++ ds) (by rw [h, List.append_assoc, List.cons_append])

/-- Orderly commands can all be executed. -/
theorem Orderly.exists_build? (ho : Orderly cs) : ∃ g, build? cs = some g := by
  induction cs using List.reverseRecOn with
  | nil => exact ⟨∅, rfl⟩
  | append_singleton cs c ih =>
    obtain ⟨g, hg⟩ := ih ho.of_append
    have ht := tells_of_build? hg
    rw [build?_concat, hg, Option.bind_some]
    cases c with
    | node n => exact ⟨_, rfl⟩
    | entry n => exact ⟨_, rfl⟩
    | exit n => exact ⟨_, rfl⟩
    | edge e =>
      obtain ⟨hsource, htarget⟩ := ho cs e [] rfl
      exact ⟨_, execute?_edge.mpr ⟨ht.mem_nodes.mpr hsource, ht.mem_nodes.mpr htarget, rfl⟩⟩

theorem edges_prefix_of_execute? (hc : g.execute? c = some h) : g.edges <+: h.edges := by
  rw [edges_of_execute? hc]
  cases c.edge? with
  | none => exact List.prefix_rfl
  | some e =>
    rw [Option.elim_some]
    split
    · exact List.prefix_rfl
    · exact List.prefix_append _ _

/-- Later commands leave the edges where they are. -/
theorem edges_prefix_of_extend? (hds : g.extend? ds = some h) : g.edges <+: h.edges := by
  induction ds generalizing g with
  | nil => exact Option.some.inj hds ▸ List.prefix_rfl
  | cons c ds ih =>
    rw [extend?_cons] at hds
    obtain ⟨g₀, hc, hds⟩ := Option.bind_eq_some_iff.mp hds
    exact (edges_prefix_of_execute? hc).trans (ih hds)

/-! ## Answers -/

/-- The number of an edge is its place among the edges. -/
theorem edgeNumber?_eq_some_iff {i : Nat} : g.edgeNumber? e = some i ↔ g.edges[i]? = some e := by
  rw [edgeNumber?, List.idxOf?_eq_some_iff, List.getElem?_eq_some_iff]
  refine exists_congr fun hi => and_iff_left_of_imp fun he j hj hje => ?_
  exact Nat.ne_of_lt hj ((g.edges_nodup.getElem_inj_iff).mp (hje.trans he.symm))

/-- What is answered to an edge is its place among the edges afterwards. -/
theorem answer_edge (hc : g.execute? (.edge e) = some h) :
    ∃ i, g.answer (.edge e) = .edge i ∧ h.edges[i]? = some e := by
  refine ⟨_, rfl, ?_⟩
  rw [edges_of_execute? hc]
  simp only [Command.edge?, Option.elim_some]
  split
  · next he =>
    obtain ⟨i, hi⟩ := List.mem_iff_getElem?.mp he
    rwa [edgeNumber?_eq_some_iff.mpr hi]
  · next he =>
    rw [edgeNumber?, List.idxOf?_eq_none_iff.mpr he]
    exact List.getElem?_concat_length

/-! ## Degrees -/

private theorem sum_length_filter {α β : Type} [DecidableEq α] (f : β → α) {ns : List α}
    (hns : ns.Nodup) {l : List β} (hl : ∀ b ∈ l, f b ∈ ns) :
    (ns.map fun n => (l.filter (f · = n)).length).sum = l.length := by
  have hcount : ∀ n, (l.filter (f · = n)).length = (l.map f).count n := by
    intro n
    rw [List.count, List.countP_map, List.countP_eq_length_filter]
    exact congrArg List.length (List.filter_congr fun b _ => rfl)
  simp only [hcount]
  rw [← List.sum_toFinset _ hns]
  have hmem : ∀ a ∈ (l.map f : Multiset α), a ∈ ns.toFinset := by simpa using hl
  simpa using Multiset.sum_count_eq_card hmem

/-- Every edge is filed once among the edges that start somewhere. -/
theorem sum_length_outEdges (g : Graph N) :
    (g.nodes.map fun n => (g.outEdges n).length).sum = g.edges.length := by
  simp only [outEdges_eq_filter]
  exact sum_length_filter Edge.source g.nodes_nodup g.source_mem

/-- Every edge is filed once among the edges that end somewhere. -/
theorem sum_length_inEdges (g : Graph N) :
    (g.nodes.map fun n => (g.inEdges n).length).sum = g.edges.length := by
  simp only [inEdges_eq_filter]
  exact sum_length_filter Edge.target g.nodes_nodup g.target_mem

/-- Of the edges at a node, those that start there have each edge once that does so. -/
theorem count_outEdges (he : e ∈ g.edges) (n : N) :
    (g.outEdges n).count e = if e.source = n then 1 else 0 := by
  rw [outEdges_eq_filter, (g.edges_nodup.filter _).count]
  simp [he]

@[inherit_doc count_outEdges]
theorem count_inEdges (he : e ∈ g.edges) (n : N) :
    (g.inEdges n).count e = if e.target = n then 1 else 0 := by
  rw [inEdges_eq_filter, (g.edges_nodup.filter _).count]
  simp [he]

/-! ## What a graph tells -/

/-- A part of the commands that built a graph built a graph too, which the rest has extended. -/
theorem exists_of_build?_append (hg : build? (cs ++ ds) = some g) :
    ∃ g₀, build? cs = some g₀ ∧ g₀.extend? ds = some g := by
  rw [build?_append] at hg
  exact Option.bind_eq_some_iff.mp hg

/-- Only orderly commands build a graph. -/
theorem orderly_of_build? (hg : build? cs = some g) : Orderly cs := by
  rintro before e after rfl
  obtain ⟨g₀, hg₀, hextend⟩ := exists_of_build?_append hg
  rw [extend?_cons] at hextend
  obtain ⟨g₁, hg₁, -⟩ := Option.bind_eq_some_iff.mp hextend
  obtain ⟨hsource, htarget, -⟩ := execute?_edge.mp hg₁
  have ht := tells_of_build? hg₀
  exact ⟨ht.mem_nodes.mp hsource, ht.mem_nodes.mp htarget⟩

/-- A node was answered to be new exactly if it had not been mentioned before. -/
theorem answer_node_of_build? {before after : List (Command N)}
    (hg : build? (before ++ .node n :: after) = some g) :
    ∃ g₀, build? before = some g₀ ∧ g₀.answer (.node n) = .added (n ∉ mentioned before) := by
  obtain ⟨g₀, hg₀, -⟩ := exists_of_build?_append hg
  refine ⟨g₀, hg₀, ?_⟩
  simp only [answer, (tells_of_build? hg₀).mem_nodes]

/-- Whenever an edge was added, the answer was the place that it has in the end; and if it had been
added before, nothing else happened. -/
theorem answer_edge_of_build? {before after : List (Command N)}
    (hg : build? (before ++ .edge e :: after) = some g) :
    ∃ g₀ i, build? before = some g₀ ∧ g₀.answer (.edge e) = .edge i ∧ g.edges[i]? = some e ∧
      (.edge e ∈ before → g₀.execute? (.edge e) = some g₀) := by
  obtain ⟨g₀, hg₀, hextend⟩ := exists_of_build?_append hg
  rw [extend?_cons] at hextend
  obtain ⟨g₁, hg₁, hextend⟩ := Option.bind_eq_some_iff.mp hextend
  obtain ⟨i, hanswer, hi⟩ := answer_edge hg₁
  obtain ⟨later, hlater⟩ := edges_prefix_of_extend? hextend
  refine ⟨g₀, i, hg₀, hanswer, ?_, fun he => ?_⟩
  · rw [← hlater, List.getElem?_append_left (List.getElem?_eq_some_iff.mp hi).1, hi]
  · apply execute?_edge_of_mem
    rw [(tells_of_build? hg₀).mem_edges]
    exact List.mem_filterMap.mpr ⟨.edge e, he, rfl⟩

/-- Commands that add edges only between nodes mentioned before build a graph.  Its nodes and edges
are those of the commands, in the order in which they first came, and its entry and exit are nodes,
those that were set last.  A node was answered to be new when it first came.  An edge was given the
same number each time, which is its place among the edges, and was added the first time only.  The
edges at a node are those of all edges that start or end there, in their order, so that each edge is
filed once at either of its ends and nowhere else. -/
theorem orderly_commands_build (ho : Orderly cs) :
    ∃ g, build? cs = some g ∧
      g.nodes = (mentioned cs).eraseDups ∧
      (∀ before n after, cs = before ++ .node n :: after → ∃ g₀, build? before = some g₀ ∧
        g₀.answer (.node n) = .added (n ∉ mentioned before)) ∧
      g.edges = (cs.filterMap Command.edge?).eraseDups ∧
      (∀ before e after, cs = before ++ .edge e :: after → ∃ g₀ i, build? before = some g₀ ∧
        g₀.answer (.edge e) = .edge i ∧ g.edges[i]? = some e ∧
        (.edge e ∈ before → g₀.execute? (.edge e) = some g₀)) ∧
      (∀ n, g.outEdges n = g.edges.filter (·.source = n) ∧
        g.inEdges n = g.edges.filter (·.target = n) ∧
        g.successors n = (g.edges.filter (·.source = n)).map Edge.target ∧
        g.predecessors n = (g.edges.filter (·.target = n)).map Edge.source) ∧
      (∀ e ∈ g.edges, ∀ n, (g.outEdges n).count e = (if e.source = n then 1 else 0) ∧
        (g.inEdges n).count e = if e.target = n then 1 else 0) ∧
      (g.nodes.map fun n => (g.outEdges n).length).sum = g.edges.length ∧
      (g.nodes.map fun n => (g.inEdges n).length).sum = g.edges.length ∧
      g.entry? = (cs.filterMap Command.entry?).getLast? ∧
      g.exit? = (cs.filterMap Command.exit?).getLast? ∧
      ∀ n, g.entry? = some n ∨ g.exit? = some n → n ∈ g.nodes := by
  obtain ⟨g, hg⟩ := ho.exists_build?
  have ht := tells_of_build? hg
  refine ⟨g, hg, ht.nodes_eq, ?_, ht.edges_eq, ?_, fun n => ?_, fun e he n => ?_,
    g.sum_length_outEdges, g.sum_length_inEdges, ht.entry_eq, ht.exit_eq, fun n hn => ?_⟩
  · rintro before n after rfl
    exact answer_node_of_build? hg
  · rintro before e after rfl
    exact answer_edge_of_build? hg
  · rw [successors, predecessors, outEdges_eq_filter, inEdges_eq_filter]
    exact ⟨rfl, rfl, rfl, rfl⟩
  · exact ⟨count_outEdges he n, count_inEdges he n⟩
  · exact hn.elim (g.entry_mem n) (g.exit_mem n)

/-- A loop at a node, two edges between the same nodes, one of them added twice, and a node that
comes late; the entry is set twice. -/
def tangled : List (Command Nat) :=
  [.entry 5, .node 3, .edge ⟨.goto, 3, 3⟩, .edge ⟨.ifTrue, 5, 3⟩, .edge ⟨.ifFalse, 5, 3⟩, .node 3,
    .exit 8, .edge ⟨.ifTrue, 5, 3⟩, .entry 3, .edge ⟨.fallThrough, 3, 8⟩]

theorem orderly_commands_build_tangled :
    Orderly tangled ∧ ∃ g, build? tangled = some g ∧ g.nodes = [5, 3, 8] ∧
      g.edges = [⟨.goto, 3, 3⟩, ⟨.ifTrue, 5, 3⟩, ⟨.ifFalse, 5, 3⟩, ⟨.fallThrough, 3, 8⟩] ∧
      (∃ g₀, build? (tangled.take 5) = some g₀ ∧ g₀.answer (.node 3) = .added false) ∧
      (∃ g₀ i, build? (tangled.take 7) = some g₀ ∧ g₀.answer (.edge ⟨.ifTrue, 5, 3⟩) = .edge i ∧
        g.edges[i]? = some ⟨.ifTrue, 5, 3⟩ ∧ g₀.execute? (.edge ⟨.ifTrue, 5, 3⟩) = some g₀) ∧
      g.outEdges 3 = [⟨.goto, 3, 3⟩, ⟨.fallThrough, 3, 8⟩] ∧
      g.entry? = some 3 ∧ g.exit? = some 8 := by
  have ho : Orderly tangled := orderly_of_build? rfl
  obtain ⟨g, hg, hnodes, hisNew, hedges, hnumber, hfiled, -, -, -, hentry, hexit, -⟩ :=
    orderly_commands_build ho
  have hout := (hfiled 3).1
  rw [hedges] at hout
  obtain ⟨g₀, i, hg₀, hanswer, hi, hknown⟩ := hnumber (tangled.take 7) ⟨.ifTrue, 5, 3⟩
    (tangled.drop 8) rfl
  refine ⟨ho, g, hg, hnodes.trans (by decide), hedges.trans (by decide),
    hisNew (tangled.take 5) 3 (tangled.drop 6) rfl, ⟨g₀, i, hg₀, hanswer, hi, hknown (by decide)⟩,
    hout.trans (by decide), hentry, hexit⟩

end FlowAnalysis.Graph
