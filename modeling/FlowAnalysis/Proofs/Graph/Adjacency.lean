import FlowAnalysis.Graph.Adjacency
import FlowAnalysis.Proofs.Graph.Commands
import Mathlib.Data.List.Forall2

/-!
# Adjacency lists and graphs

Adjacency lists stand for a graph: a node has the place that the index says, and the numbers that
are filed at that place are those of the edges at the node.  Commands keep it that way.  So what is
answered while adjacency lists are built is what is answered of the graph, though the one is found
among the edges of a node and the other among all edges.

## Main definitions

- `Adjacency.Represents` — adjacency lists stand for a graph

## Main statements

- `Adjacency.Represents.exists_execute?` — a command answers the same, and what it leaves stands for
  the graph that it leaves
- `Adjacency.Represents.inEdges?_eq`, `Adjacency.Represents.outEdges?_eq` — the same edges are found
- `Adjacency.build?_eq` — commands build the same, and answer the same on the way
-/

namespace FlowAnalysis

variable {N : Type}

section Lists

variable {α β : Type} {R : α → β → Prop} {l : List α} {m : List β}

private theorem forall₂_modify {f : α → α} {g : β → β} (hfg : ∀ a b, R a b → R (f a) (g b))
    (h : List.Forall₂ R l m) (i : Nat) : List.Forall₂ R (l.modify i f) (m.modify i g) := by
  induction h generalizing i with
  | nil => simp
  | @cons a b l m hab hlm ih =>
    cases i with
    | zero => exact .cons (hfg a b hab) hlm
    | succ i => exact .cons hab (ih i)

private theorem exists_getElem?_of_forall₂ {i : Nat} {b : β} (h : List.Forall₂ R l m)
    (hb : m[i]? = some b) : ∃ a, l[i]? = some a ∧ R a b := by
  induction h generalizing i with
  | nil => cases hb
  | @cons a b l m hab _ ih =>
    cases i with
    | zero => exact ⟨a, rfl, Option.some.inj hb ▸ hab⟩
    | succ i => exact ih hb

private theorem mapM_of_forall₂ {f : α → Option β}
    (h : List.Forall₂ (fun a b => f a = some b) l m) : l.mapM f = some m := by
  induction h with
  | nil => rfl
  | cons hab _ ih =>
    rw [List.mapM_cons, hab, ih]
    rfl

/-- The place of an element in a longer list. -/
private theorem idxOf?_concat [DecidableEq α] (l : List α) (a b : α) :
    (l ++ [a]).idxOf? b = (l.idxOf? b).or (if a = b then some l.length else none) := by
  show (l ++ [a]).findIdx? (· == b) = (l.findIdx? (· == b)).or _
  rw [List.findIdx?_append]
  by_cases h : a = b <;> simp [h]

end Lists

variable [DecidableEq N]

/-! ## The graph side -/

namespace Graph

variable {h : Graph N} {n : N} {e : Edge N} {i : Nat}

theorem addNode_of_mem (hn : n ∈ h.nodes) : h.addNode n = h := dif_pos hn

theorem slots_addNode (hn : n ∉ h.nodes) : (h.addNode n).slots = h.slots ++ [⟨n, [], []⟩] := by
  unfold addNode
  rw [dif_neg hn]

theorem slots_addEdge (hs : e.source ∈ h.nodes) (ht : e.target ∈ h.nodes) (he : e ∉ h.edges) :
    (h.addEdge e hs ht).slots = h.slots.map (Slot.attach e) := by
  have hout : e ∉ h.outEdges e.source := fun hmem => he (mem_outEdges.mp hmem).1
  unfold addEdge
  rw [dif_neg hout]

/-- The slot at the place of a node is the slot of the node. -/
theorem exists_slot_of_idxOf? (hi : h.nodes.idxOf? n = some i) :
    ∃ s, h.slots[i]? = some s ∧ s.node = n := by
  obtain ⟨hlt, hn, -⟩ := List.idxOf?_eq_some_iff.mp hi
  have hlt' : i < h.slots.length := by simpa [nodes] using hlt
  exact ⟨h.slots[i], List.getElem?_eq_getElem hlt', by simpa [nodes] using hn⟩

theorem mem_nodes_of_idxOf? (hi : h.nodes.idxOf? n = some i) : n ∈ h.nodes :=
  List.isSome_idxOf?.mp (Option.isSome_iff_exists.mpr ⟨i, hi⟩)

theorem ins_of_idxOf? (hi : h.nodes.idxOf? n = some i) :
    (h.slots.map Slot.ins)[i]? = some (h.inEdges n) := by
  obtain ⟨s, hs, rfl⟩ := exists_slot_of_idxOf? hi
  rw [List.getElem?_map, hs, inEdges_eq_filter, ← h.ins_eq s (List.mem_of_getElem? hs)]
  rfl

theorem outs_of_idxOf? (hi : h.nodes.idxOf? n = some i) :
    (h.slots.map Slot.outs)[i]? = some (h.outEdges n) := by
  obtain ⟨s, hs, rfl⟩ := exists_slot_of_idxOf? hi
  rw [List.getElem?_map, hs, outEdges_eq_filter, ← h.outs_eq s (List.mem_of_getElem? hs)]
  rfl

/-- What is filed at a node is filed at the place of the node. -/
theorem map_file (h : Graph N) (hi : h.nodes.idxOf? n = some i) (view : Slot N → List (Edge N))
    (e : Edge N) : (h.slots.map fun s => if n = s.node then view s ++ [e] else view s) =
      (h.slots.map view).modify i (· ++ [e]) := by
  refine List.ext_getElem? fun j => ?_
  rw [List.getElem?_map, List.getElem?_modify, List.getElem?_map]
  cases hs : h.slots[j]? with
  | none => rfl
  | some s =>
    have hj : h.nodes[j]? = some s.node := by
      rw [nodes, List.getElem?_map, hs]
      rfl
    obtain ⟨hlt, hn, -⟩ := List.idxOf?_eq_some_iff.mp hi
    obtain ⟨hjlt, hj⟩ := List.getElem?_eq_some_iff.mp hj
    -- No two places have the same node.
    have hplace : n = s.node ↔ i = j := by
      rw [← hn, ← hj]
      exact h.nodes_nodup.getElem_inj_iff
    simp only [Option.map_some, hplace]
    split <;> rfl

end Graph

namespace Adjacency

variable {g : Adjacency N} {h h' : Graph N} {n : N} {e : Edge N} {i : Nat} {c : Graph.Command N}
  {cs : List (Graph.Command N)}

/-! ## Adjacency lists that stand for a graph -/

omit [DecidableEq N] in
/-- Adjacency lists hold the numbers of edges, list by list. -/
def Files (edges : List (Edge N)) : List (List Nat) → List (List (Edge N)) → Prop :=
  List.Forall₂ (List.Forall₂ fun k e => edges[k]? = some e)

/-- Adjacency lists stand for a graph: they have its nodes, edges, entry and exit, every node has
the place that the index says, and at that place stand the numbers of the edges at the node. -/
structure Represents (g : Adjacency N) (h : Graph N) : Prop where
  nodes_eq : g.nodes = h.nodes
  places_eq : ∀ n, g.places.get? n = h.nodes.idxOf? n
  edges_eq : g.edges = h.edges
  ins : Files g.edges g.ins (h.slots.map Slot.ins)
  outs : Files g.edges g.outs (h.slots.map Slot.outs)
  entry_eq : g.entry? = h.entry?
  exit_eq : g.exit? = h.exit?

namespace Files

variable {edges : List (Edge N)} {kept : List (List Nat)} {filed : List (List (Edge N))}
  {es : List (Edge N)}

omit [DecidableEq N]

/-- A node that is new has no edges. -/
theorem append_nil (hf : Files edges kept filed) : Files edges (kept ++ [[]]) (filed ++ [[]]) :=
  List.rel_append hf (.cons .nil .nil)

/-- A new edge leaves the others their numbers. -/
theorem concat (hf : Files edges kept filed) (e : Edge N) : Files (edges ++ [e]) kept filed := by
  refine hf.imp fun ks es hes => hes.imp fun k d hk => ?_
  rw [List.getElem?_append_left (List.getElem?_eq_some_iff.mp hk).1, hk]

/-- A new edge is filed under its number. -/
theorem modify (hf : Files edges kept filed) (e : Edge N) (i : Nat) :
    Files (edges ++ [e]) (kept.modify i (· ++ [edges.length])) (filed.modify i (· ++ [e])) := by
  refine forall₂_modify (fun ks es hes => ?_) (hf.concat e) i
  exact List.rel_append hes (.cons List.getElem?_concat_length .nil)

theorem exists_getElem? (hf : Files edges kept filed) (hes : filed[i]? = some es) :
    ∃ ks, kept[i]? = some ks ∧ List.Forall₂ (fun k e => edges[k]? = some e) ks es :=
  exists_getElem?_of_forall₂ hf hes

end Files

omit [DecidableEq N] in
theorem edgesAt?_eq {ks : List Nat} {es : List (Edge N)}
    (hes : List.Forall₂ (fun k e => g.edges[k]? = some e) ks es) : g.edgesAt? ks = some es :=
  mapM_of_forall₂ hes

/-- An edge is found by its number among the edges at a node exactly if it is one of them. -/
theorem find?_eq {edges es : List (Edge N)} {ks : List Nat} (hedges : edges.Nodup)
    (hes : List.Forall₂ (fun k e => edges[k]? = some e) ks es) :
    (ks.find? fun k => edges[k]? = some e) = if e ∈ es then edges.idxOf? e else none := by
  induction hes with
  | nil => rfl
  | @cons k d ks es hk _ ih =>
    by_cases hd : d = e
    · subst hd
      have hfound : edges.idxOf? d = some k := by
        obtain ⟨hlt, hget⟩ := List.getElem?_eq_some_iff.mp hk
        refine List.idxOf?_eq_some_iff.mpr ⟨hlt, hget, fun j hj hjd => ?_⟩
        exact Nat.ne_of_lt hj (hedges.getElem_inj_iff.mp (hjd.trans hget.symm))
      rw [List.find?_cons_of_pos (by simp [hk]), if_pos List.mem_cons_self, hfound]
    · have hmem : e ∈ d :: es ↔ e ∈ es := by simp [Ne.symm hd]
      rw [List.find?_cons_of_neg (by simp [hk, hd]), ih]
      simp only [hmem]

namespace Represents

/-! ### Reading -/

/-- What is filed at the places of the nodes is found exactly for the nodes of the graph. -/
theorem filed?_eq (hr : g.Represents h) {kept : List (List Nat)} {filed : List (List (Edge N))}
    {es : List (Edge N)} (hf : Files g.edges kept filed)
    (hes : ∀ i, h.nodes.idxOf? n = some i → filed[i]? = some es) :
    ((g.places.get? n).bind fun i => kept[i]?.bind g.edgesAt?) =
      if n ∈ h.nodes then some es else none := by
  rw [hr.places_eq]
  cases hi : h.nodes.idxOf? n with
  | none => exact (if_neg (List.idxOf?_eq_none_iff.mp hi)).symm
  | some i =>
    obtain ⟨ks, hks, hfound⟩ := hf.exists_getElem? (hes i hi)
    rw [if_pos (Graph.mem_nodes_of_idxOf? hi), Option.bind_some, hks, Option.bind_some,
      edgesAt?_eq hfound]

theorem inEdges?_eq (hr : g.Represents h) (n : N) :
    g.inEdges? n = if n ∈ h.nodes then some (h.inEdges n) else none :=
  hr.filed?_eq hr.ins fun _ => Graph.ins_of_idxOf?

theorem outEdges?_eq (hr : g.Represents h) (n : N) :
    g.outEdges? n = if n ∈ h.nodes then some (h.outEdges n) else none :=
  hr.filed?_eq hr.outs fun _ => Graph.outs_of_idxOf?

/-! ### One command -/

/-- A node is answered to be new if it is no node of the graph. -/
theorem addNode (hr : g.Represents h) (n : N) :
    (g.addNode n).1 = decide (n ∉ h.nodes) ∧ (g.addNode n).2.Represents (h.addNode n) := by
  unfold Adjacency.addNode
  by_cases hn : n ∈ h.nodes
  · obtain ⟨i, hi⟩ := Option.isSome_iff_exists.mp (List.isSome_idxOf?.mpr hn)
    rw [hr.places_eq, hi, Graph.addNode_of_mem hn]
    exact ⟨by simp [hn], hr⟩
  · have hi : h.nodes.idxOf? n = none := List.idxOf?_eq_none_iff.mpr hn
    rw [hr.places_eq, hi]
    refine ⟨by simp [hn], ⟨?_, fun m => ?_, ?_, ?_, ?_, ?_, ?_⟩⟩
    · rw [Graph.nodes_addNode, if_neg hn, ← hr.nodes_eq]
    · rw [Table.get?_insert, Graph.nodes_addNode, if_neg hn, idxOf?_concat, hr.places_eq,
        hr.nodes_eq]
      by_cases hnm : n = m
      · subst hnm
        simp [hi]
      · simp [hnm]
    · rw [Graph.edges_addNode]
      exact hr.edges_eq
    · rw [Graph.slots_addNode hn, List.map_append]
      exact hr.ins.append_nil
    · rw [Graph.slots_addNode hn, List.map_append]
      exact hr.outs.append_nil
    · rw [Graph.entry?_addNode]
      exact hr.entry_eq
    · rw [Graph.exit?_addNode]
      exact hr.exit_eq

theorem setEntry (hr : g.Represents h) (n : N) : (g.setEntry n).Represents (h.setEntry n) :=
  { (hr.addNode n).2 with entry_eq := rfl }

theorem setExit (hr : g.Represents h) (n : N) : (g.setExit n).Represents (h.setExit n) :=
  { (hr.addNode n).2 with exit_eq := rfl }

/-- An edge between nodes is answered by the number that it has among all edges, or gets. -/
theorem addEdge (hr : g.Represents h) (hs : e.source ∈ h.nodes) (ht : e.target ∈ h.nodes) :
    ∃ g', g.addEdge? e = some ((h.edgeNumber? e).getD h.edges.length, g') ∧
      g'.Represents (h.addEdge e hs ht) := by
  obtain ⟨i, hi⟩ := Option.isSome_iff_exists.mp (List.isSome_idxOf?.mpr hs)
  obtain ⟨j, hj⟩ := Option.isSome_iff_exists.mp (List.isSome_idxOf?.mpr ht)
  obtain ⟨ks, hks, hes⟩ := hr.outs.exists_getElem? (Graph.outs_of_idxOf? hi)
  have hfind := find?_eq (e := e) (hr.edges_eq ▸ h.edges_nodup) hes
  have hmem : e ∈ h.outEdges e.source ↔ e ∈ h.edges := by simp [Graph.mem_outEdges]
  unfold Adjacency.addEdge?
  simp only [hr.places_eq, hi, hj, hks, hfind, Option.bind_eq_bind, Option.bind_some, hmem]
  by_cases he : e ∈ h.edges
  · obtain ⟨k, hk⟩ := Option.isSome_iff_exists.mp (List.isSome_idxOf?.mpr he)
    have hsame : h.addEdge e hs ht = h := dif_pos (hmem.mpr he)
    rw [if_pos he, hr.edges_eq, hk, Graph.edgeNumber?, hk, hsame]
    exact ⟨g, rfl, hr⟩
  · rw [if_neg he, Graph.edgeNumber?, List.idxOf?_eq_none_iff.mpr he, hr.edges_eq]
    refine ⟨_, rfl, ⟨?_, fun m => ?_, ?_, ?_, ?_, ?_, ?_⟩⟩
    · rw [Graph.nodes_addEdge]
      exact hr.nodes_eq
    · rw [Graph.nodes_addEdge]
      exact hr.places_eq m
    · rw [Graph.edges_addEdge, if_neg he]
    · have hfile := h.map_file hj Slot.ins e
      rw [Graph.slots_addEdge hs ht he, List.map_map, ← hr.edges_eq]
      exact hfile ▸ hr.ins.modify e j
    · have hfile := h.map_file hi Slot.outs e
      rw [Graph.slots_addEdge hs ht he, List.map_map, ← hr.edges_eq]
      exact hfile ▸ hr.outs.modify e i
    · rw [Graph.entry?_addEdge]
      exact hr.entry_eq
    · rw [Graph.exit?_addEdge]
      exact hr.exit_eq

/-- An edge cannot be added if one of its ends has no place. -/
theorem addEdge?_eq_none (hr : g.Represents h) (he : ¬ (e.source ∈ h.nodes ∧ e.target ∈ h.nodes)) :
    g.addEdge? e = none := by
  unfold Adjacency.addEdge?
  simp only [hr.places_eq, Option.bind_eq_bind]
  by_cases hs : e.source ∈ h.nodes
  · have ht : e.target ∉ h.nodes := fun ht => he ⟨hs, ht⟩
    simp only [List.idxOf?_eq_none_iff.mpr ht, Option.bind_none, Option.bind_fun_none]
  · rw [List.idxOf?_eq_none_iff.mpr hs, Option.bind_none]

/-- A command answers the same, and what it leaves stands for the graph that it leaves. -/
theorem exists_execute? (hr : g.Represents h) (hc : h.execute? c = some h') :
    ∃ g', g.execute? c = some (h.answer c, g') ∧ g'.Represents h' := by
  cases c with
  | node n =>
    obtain ⟨hnew, hr'⟩ := hr.addNode n
    obtain rfl := Option.some.inj hc
    exact ⟨_, congrArg (fun b => some (Graph.Answer.added b, (g.addNode n).2)) hnew, hr'⟩
  | entry n => exact ⟨_, rfl, Option.some.inj hc ▸ hr.setEntry n⟩
  | exit n => exact ⟨_, rfl, Option.some.inj hc ▸ hr.setExit n⟩
  | edge e =>
    obtain ⟨hs, ht, rfl⟩ := Graph.execute?_edge.mp hc
    obtain ⟨g', hg', hr'⟩ := hr.addEdge hs ht
    exact ⟨g', congrArg (Option.map _) hg', hr'⟩

theorem execute?_eq_none (hr : g.Represents h) (hc : h.execute? c = none) :
    g.execute? c = none := by
  cases c with
  | node n => cases hc
  | entry n => cases hc
  | exit n => cases hc
  | edge e =>
    have he : ¬ (e.source ∈ h.nodes ∧ e.target ∈ h.nodes) := by
      rintro ⟨hs, ht⟩
      rw [Graph.execute?_edge.mpr ⟨hs, ht, rfl⟩] at hc
      cases hc
    show Option.map _ _ = none
    rw [hr.addEdge?_eq_none he, Option.map_none]

/-! ### Sequences of commands -/

/-- Each command is answered as the graph that it is executed on answers it. -/
theorem exists_extend? (hr : g.Represents h) (hcs : h.extend? cs = some h') :
    ∃ as g', g.extend? cs = some (as, g') ∧ g'.Represents h' ∧ as.length = cs.length ∧
      ∀ before c after, cs = before ++ c :: after →
        ∃ h₀, h.extend? before = some h₀ ∧ as[before.length]? = some (h₀.answer c) := by
  induction cs generalizing g h with
  | nil =>
    obtain rfl := Option.some.inj hcs
    exact ⟨[], g, rfl, hr, rfl, fun before c after hnil => by simp at hnil⟩
  | cons c cs ih =>
    rw [Graph.extend?_cons] at hcs
    obtain ⟨h₁, hc, hcs⟩ := Option.bind_eq_some_iff.mp hcs
    obtain ⟨g₁, hg₁, hr₁⟩ := hr.exists_execute? hc
    obtain ⟨as, g', hg', hr', hlength, hanswer⟩ := ih hr₁ hcs
    refine ⟨h.answer c :: as, g', ?_, hr', congrArg (· + 1) hlength, fun before d after hds => ?_⟩
    · simp [Adjacency.extend?, hg₁, hg']
    · cases before with
      | nil =>
        obtain ⟨rfl, rfl⟩ := List.cons.inj hds
        exact ⟨h, rfl, rfl⟩
      | cons b before =>
        obtain ⟨rfl, rfl⟩ := List.cons.inj hds
        obtain ⟨h₀, hh₀, hd⟩ := hanswer before d after rfl
        exact ⟨h₀, by rw [Graph.extend?_cons, hc, Option.bind_some, hh₀], hd⟩

theorem extend?_eq_none (hr : g.Represents h) (hcs : h.extend? cs = none) :
    g.extend? cs = none := by
  induction cs generalizing g h with
  | nil => cases hcs
  | cons c cs ih =>
    rw [Graph.extend?_cons] at hcs
    cases hc : h.execute? c with
    | none => simp [Adjacency.extend?, hr.execute?_eq_none hc]
    | some h₁ =>
      obtain ⟨g₁, hg₁, hr₁⟩ := hr.exists_execute? hc
      rw [hc, Option.bind_some] at hcs
      simp [Adjacency.extend?, hg₁, ih hr₁ hcs]

end Represents

/-- Nothing stands for the graph without nodes. -/
theorem represents_empty : Represents {} (∅ : Graph N) where
  nodes_eq := rfl
  places_eq _ := rfl
  edges_eq := rfl
  ins := .nil
  outs := .nil
  entry_eq := rfl
  exit_eq := rfl

/-- Commands build adjacency lists exactly if they build a graph, and the nodes, the edges, the
edges at each node, the entry and the exit are the same.  Each command was answered as it is by the
graph that the commands before it build. -/
theorem build?_eq (cs : List (Graph.Command N)) :
    (build? cs = none ↔ Graph.build? cs = none) ∧
    ∀ h, Graph.build? cs = some h → ∃ as g, build? cs = some (as, g) ∧
      g.nodes = h.nodes ∧ g.edges = h.edges ∧ g.entry? = h.entry? ∧ g.exit? = h.exit? ∧
      (∀ n, g.inEdges? n = if n ∈ h.nodes then some (h.inEdges n) else none) ∧
      (∀ n, g.outEdges? n = if n ∈ h.nodes then some (h.outEdges n) else none) ∧
      as.length = cs.length ∧
      ∀ before c after, cs = before ++ c :: after →
        ∃ h₀, Graph.build? before = some h₀ ∧ as[before.length]? = some (h₀.answer c) := by
  refine ⟨⟨fun hnone => ?_, represents_empty.extend?_eq_none⟩, fun h hh => ?_⟩
  · cases hh : Graph.build? cs with
    | none => rfl
    | some h =>
      obtain ⟨as, g, hg, -⟩ := represents_empty.exists_extend? hh
      cases hnone.symm.trans hg
  · obtain ⟨as, g, hg, hr, hlength, hanswer⟩ := represents_empty.exists_extend? hh
    exact ⟨as, g, hg, hr.nodes_eq, hr.edges_eq, hr.entry_eq, hr.exit_eq, hr.inEdges?_eq,
      hr.outEdges?_eq, hlength, hanswer⟩

end Adjacency

end FlowAnalysis
