import FlowAnalysis.Proofs.Constants.Transfer
import FlowAnalysis.Proofs.Solver.Acyclic

/-!
# Constant propagation without cycles

Without cycles constant propagation comes to an end even for methods that divide, and what it finds
depends neither on the order in which the graph was built nor on the order of the visits.  Along a
straight line it is what the statements make of the boundary fact, one after the other.

## Main statements

- `inflow_eq_of_predecessors` — what arrives depends on which nodes lead to a node, and no more
- `outgoing_eq_foldl` — the facts along a straight line
- `settles_without_cycles` — graphs without cycles
- `entry_statement_counts` — what the statement at the entry does is not left out
-/

namespace FlowAnalysis.Constants

variable {m : Method} {g g' : Graph StmtId} {o o' : Options} {n : StmtId}

theorem passable (m : Method) (g : Graph StmtId) (o : Options) : (problem m g o).Passable := by
  intro e _ hneed
  cases hneed

/-! ## Rearranged graphs -/

/-- Two graphs have the same entry, nodes and edges, whatever the orders. -/
structure Rearranged (g g' : Graph StmtId) : Prop where
  entry_eq : g.entry? = g'.entry?
  mem_nodes_iff : ∀ n, n ∈ g.nodes ↔ n ∈ g'.nodes
  mem_edges_iff : ∀ e, e ∈ g.edges ↔ e ∈ g'.edges

theorem Rearranged.mem_predecessors_iff (h : Rearranged g g') (n k : StmtId) :
    k ∈ g.predecessors n ↔ k ∈ g'.predecessors n := by
  simp only [Graph.predecessors, List.mem_map, Graph.mem_inEdges, h.mem_edges_iff]

theorem Rearranged.acyclic (h : Rearranged g g') (hac : g.Acyclic) : g'.Acyclic := by
  have hadj : g'.Adjacent = g.Adjacent := by
    funext a b
    simp only [Graph.Adjacent, h.mem_edges_iff]
  intro n hn
  rw [hadj] at hn
  exact hac n hn

/-- What arrives depends on which nodes lead to a node, but not on their order. -/
theorem inflow_eq_of_predecessors (hentry : g.entry? = g'.entry?)
    (hpred : ∀ k, k ∈ g.predecessors n ↔ k ∈ g'.predecessors n) (out : StmtId → Fact) :
    (problem m g o).inflow out n = (problem m g' o').inflow out n := by
  by_cases hn : g.entry? = some n
  · have hs : (problem m g o).start? = some n := hn
    have hs' : (problem m g' o').start? = some n := hentry.symm.trans hn
    rw [Problem.inflow, Problem.inflow, if_pos hs, if_pos hs']
    rfl
  · have hn' : g'.entry? ≠ some n := hentry ▸ hn
    obtain ⟨x, hx⟩ := Option.ne_none_iff_exists'.mp ((passable m g o).inflow_ne_none out n)
    obtain ⟨x', hx'⟩ := Option.ne_none_iff_exists'.mp ((passable m g' o').inflow_ne_none out n)
    have heq : x = x' := by
      apply Fact.ext_get
      intro v
      apply le_antisymm
      · exact get_le_get_of_inflow hn hn' hx hx' fun k hk => ⟨(hpred k).mp hk, le_rfl⟩
      · exact get_le_get_of_inflow hn' hn hx' hx fun k hk => ⟨(hpred k).mpr hk, le_rfl⟩
    rw [hx, hx', heq]

theorem Rearranged.solves (h : Rearranged g g') {r : Solution StmtId Fact}
    (hr : (problem m g' o').Solves (fun n => effect m (stmtAt m n)) r) :
    (problem m g o).Solves (fun n => effect m (stmtAt m n)) r := by
  intro n hn
  obtain ⟨hin, hout⟩ := hr n ((h.mem_nodes_iff n).mp hn)
  refine ⟨?_, hout⟩
  rw [inflow_eq_of_predecessors h.entry_eq (h.mem_predecessors_iff n)]
  exact hin

/-- Without cycles the same facts are found in rearranged graphs. -/
theorem Rearranged.get?_eq_get? (h : Rearranged g g') (hac : g.Acyclic) {limit limit' : Nat}
    {t t' : State StmtId Fact} (ht : (problem m g o).solve limit = .solved t)
    (ht' : (problem m g' o').solve limit' = .solved t') (n : StmtId) :
    ((problem m g o).solution t).before.get? n = ((problem m g' o').solution t').before.get? n ∧
      ((problem m g o).solution t).after.get? n = ((problem m g' o').solution t').after.get? n := by
  have hr := Problem.solves_of_solve_eq_solved (overwrites m) ht
  have hr' := h.solves (o := o) (Problem.solves_of_solve_eq_solved (overwrites m) ht')
  obtain ⟨hbefore, hafter⟩ := Problem.keys_of_solve_eq_solved ht
  obtain ⟨hbefore', hafter'⟩ := Problem.keys_of_solve_eq_solved ht'
  have hsame : ∀ k ∈ g.nodes, _ := fun k hk => hr.unique hac hr' hk
  constructor
  · apply Table.get?_congr (by rw [hbefore, hbefore']; exact h.mem_nodes_iff) ∅
    rw [hbefore]
    exact fun k hk => (hsame k hk).1
  · apply Table.get?_congr (by rw [hafter, hafter']; exact h.mem_nodes_iff) ∅
    rw [hafter]
    exact fun k hk => (hsame k hk).2

/-! ## Straight lines -/

/-- What arrives at a node with one predecessor is what goes on from there. -/
theorem inflow_eq_of_forall_predecessors {k : StmtId} (hn : g.entry? ≠ some n)
    (hpred : ∀ j, j ∈ g.predecessors n ↔ j = k) (out : StmtId → Fact) :
    (problem m g o).inflow out n = some (out k) := by
  obtain ⟨x, hx⟩ := Option.ne_none_iff_exists'.mp ((passable m g o).inflow_ne_none out n)
  have heq : x = out k := by
    apply Fact.ext_get
    intro v
    apply eq_of_forall_ge_iff
    intro z
    rw [get_le_iff_of_inflow hn hx]
    simp only [hpred, forall_eq]
  rw [hx, heq]

/-- What goes on from a node of a straight line is what the statements up to there make of the
boundary fact. -/
theorem outgoing_eq_foldl {line : List StmtId} (hline : g.StraightLine line)
    {r : Solution StmtId Fact} (hr : (problem m g o).Solves (fun n => effect m (stmtAt m n)) r)
    {ns : List StmtId} (hns : ns ++ [n] <+: line) :
    (problem m g o).outgoing r n =
      (ns ++ [n]).foldl (fun fact n => effect m (stmtAt m n) fact) (boundary m) := by
  induction ns using List.reverseRecOn generalizing n with
  | nil =>
    obtain ⟨t, rfl⟩ := hns
    have hs : (problem m g o).start? = some n := hline.entry_eq
    obtain ⟨hin, hout⟩ := hr n (hline.perm.mem_iff.mpr (by simp))
    rw [Problem.inflow, if_pos hs] at hin
    rw [hout, ← Option.some.inj hin]
    rfl
  | append_singleton ks k ih =>
    obtain ⟨t, ht⟩ := hns
    obtain rfl : ks ++ k :: n :: t = line := by simpa using ht
    have hk := ih (n := k) ⟨n :: t, by simp⟩
    obtain ⟨hin, hout⟩ := hr n (hline.perm.mem_iff.mpr (by simp))
    -- Only the node before it leads to the node.
    have hpred : ∀ j, j ∈ g.predecessors n ↔ j = k :=
      fun j => Graph.mem_predecessors.trans hline.adjacent_iff_eq
    rw [inflow_eq_of_forall_predecessors hline.entry_ne hpred] at hin
    rw [hout, ← Option.some.inj hin, hk, List.foldl_append (l := ks ++ [k])]
    rfl

theorem exists_solve_eq_solved (hac : g.Acyclic) (hentry : g.entry?.isSome) :
    ∃ limit t, (problem m g o).solve limit = .solved t :=
  Problem.exists_solve_eq_solved_of_acyclic (p := problem m g o) hac (passable m g o) hentry

/-- In a graph without cycles every analysis that overwrites the fact behind a node by a function of
the fact before it, and reports changes truthfully, comes to an end; with a solution, if facts can be
passed along the edges along which they change.  That is the only solution of the equations, and one
pass through the nodes in any order in which the edges lead on computes it.

Of constant propagation, this means that it finds the same facts however the graph was built, and on
a straight line what the statements make of the boundary fact, that of the entry being the first. -/
theorem settles_without_cycles {N φ : Type} [DecidableEq N] :
    (∀ (p : Problem N φ) (f : N → φ → φ), p.analysis.Overwrites f → p.graph.Acyclic →
      p.start?.isSome →
      (∃ limit, (∃ t, p.solve limit = .solved t) ∨
        ∃ log, p.solve limit = .failed (.noEdgeTransfer p.analysis.id) log) ∧
      (p.Passable → ∃ limit t, p.solve limit = .solved t) ∧
      (∃ order, p.direction.Sorts p.graph order) ∧
      ∀ limit t, p.solve limit = .solved t →
        p.Solves f (p.solution t) ∧
        (∀ r, p.Solves f r → ∀ n ∈ p.graph.nodes,
          p.incoming r n = p.incoming (p.solution t) n ∧
          p.outgoing r n = p.outgoing (p.solution t) n) ∧
        ∀ order, p.direction.Sorts p.graph order → ∀ facts, ∃ facts',
          p.sweep f order facts = some facts' ∧
          p.Matches (p.solution t) p.graph.nodes facts') ∧
    (∀ (m : Method) (g g' : Graph StmtId) (o o' : Options), g.Acyclic → g.entry?.isSome →
      Rearranged g g' →
      (∃ limit t, (problem m g o).solve limit = .solved t) ∧
      (∃ limit t, (problem m g' o').solve limit = .solved t) ∧
      ∀ limit t limit' t', (problem m g o).solve limit = .solved t →
        (problem m g' o').solve limit' = .solved t' → ∀ n,
        ((problem m g o).solution t).before.get? n = ((problem m g' o').solution t').before.get? n ∧
        ((problem m g o).solution t).after.get? n = ((problem m g' o').solution t').after.get? n) ∧
    ∀ (m : Method) (g : Graph StmtId) (o : Options) (entry : StmtId) (rest : List StmtId),
      g.StraightLine (entry :: rest) →
      (∃ limit t, (problem m g o).solve limit = .solved t) ∧
      ∀ limit t, (problem m g o).solve limit = .solved t → ∀ ns n, ns ++ [n] <+: rest →
        ((problem m g o).solution t).after.get? n =
          some ((ns ++ [n]).foldl (fun fact n => effect m (stmtAt m n) fact)
            (effect m (stmtAt m entry) (boundary m))) := by
  refine ⟨?_, ?_, ?_⟩
  · intro p f hf hac hstart
    refine ⟨Problem.exists_solve_ends hac hstart,
      fun hpass => Problem.exists_solve_eq_solved_of_acyclic hac hpass hstart,
      hac.exists_sorts p.direction, fun limit t ht => ?_⟩
    have hsolves := Problem.solves_of_solve_eq_solved hf ht
    exact ⟨hsolves, fun r hr n hn => hr.unique hac hsolves hn,
      fun order hs facts => Problem.sweep_eq_of_solves hac hsolves hs facts⟩
  · intro m g g' o o' hac hentry h
    exact ⟨exists_solve_eq_solved hac hentry,
      exists_solve_eq_solved (h.acyclic hac) (h.entry_eq ▸ hentry),
      fun limit t limit' t' ht ht' n => h.get?_eq_get? hac ht ht' n⟩
  · intro m g o entry rest hline
    have hentry : g.entry?.isSome := by rw [hline.entry_eq]; rfl
    refine ⟨exists_solve_eq_solved hline.acyclic hentry, fun limit t ht ns n hns => ?_⟩
    have hsolves := Problem.solves_of_solve_eq_solved (overwrites m) ht
    have hline' : (entry :: ns) ++ [n] <+: entry :: rest := (List.prefix_cons_inj entry).mpr hns
    have hn : n ∈ g.nodes := hline.perm.mem_iff.mpr (hline'.subset (by simp))
    have hkeys := (Problem.keys_of_solve_eq_solved ht).2
    rw [Table.get?_eq_some_getD (hkeys ▸ hn) ∅]
    exact congrArg some (outgoing_eq_foldl hline hsolves hline')

/-- Divides by a variable that is zero after the statement before it. -/
def lateZero : Method where
  name := "lateZero"
  vars := [⟨"a", .int⟩, ⟨"b", .int⟩, ⟨"x", .int⟩]
  params := [0]
  body := [{ stmt := .nop }, { stmt := .assign (some 1) (.int 0) },
    { stmt := .assign (some 2) (.binary (.arith .div) 0 1) }]

/-- The statements in a line, or with a way past the second one. -/
def lateZeroGraph (short : Bool) : Graph StmtId :=
  (Graph.build? ([.entry 0, .node 1, .node 2, .edge ⟨.fallThrough, 0, 1⟩,
    .edge ⟨.fallThrough, 1, 2⟩] ++ if short then [.edge ⟨.goto, 0, 2⟩] else [])).getD ∅

/-- The same graph, built from its end. -/
def reversedLateZeroGraph : Graph StmtId :=
  (Graph.build? [.node 2, .node 1, .entry 0, .edge ⟨.goto, 0, 2⟩, .edge ⟨.fallThrough, 1, 2⟩,
    .edge ⟨.fallThrough, 0, 1⟩]).getD ∅

theorem lateZeroGraph_acyclic (short : Bool) : (lateZeroGraph short).Acyclic := by
  apply Graph.acyclic_of_lt id
  rintro a b ⟨e, he, rfl, rfl⟩
  revert e
  cases short <;> decide

theorem lateZeroGraph_line : (lateZeroGraph false).StraightLine [0, 1, 2] := by
  refine ⟨by decide, fun a b => ?_, rfl⟩
  have hedges : (lateZeroGraph false).edges = [⟨.fallThrough, 0, 1⟩, ⟨.fallThrough, 1, 2⟩] := rfl
  simp [Graph.Adjacent, hedges, List.infix_cons_iff]
  grind

theorem settles_without_cycles_lateZero :
    (∃ t, (problem lateZero (lateZeroGraph true) {}).solve 6 = .solved t ∧
      ∃ facts, (problem lateZero (lateZeroGraph true) {}).sweep
          (fun n => effect lateZero (stmtAt lateZero n)) [0, 1, 2] (fun _ => ∅, fun _ => ∅) =
            some facts ∧
        facts.2 2 = (problem lateZero (lateZeroGraph true) {}).outgoing
          ((problem lateZero (lateZeroGraph true) {}).solution t) 2) ∧
    (∃ t t', (problem lateZero (lateZeroGraph true) {}).solve 6 = .solved t ∧
      (problem lateZero reversedLateZeroGraph {}).solve 8 = .solved t' ∧
      ((problem lateZero (lateZeroGraph true) {}).solution t).after.get? 2 =
        ((problem lateZero reversedLateZeroGraph {}).solution t').after.get? 2) ∧
    ∃ t, (problem lateZero (lateZeroGraph false) {}).solve 6 = .solved t ∧
      ((problem lateZero (lateZeroGraph false) {}).solution t).after.get? 2 =
        some ([1, 2].foldl (fun fact n => effect lateZero (stmtAt lateZero n) fact)
          (effect lateZero (stmtAt lateZero 0) (boundary lateZero))) := by
  obtain ⟨hgeneral, hrearranged, hline⟩ :=
    @settles_without_cycles StmtId Fact inferInstance
  obtain ⟨t, ht⟩ : ∃ t, (problem lateZero (lateZeroGraph true) {}).solve 6 = .solved t := ⟨_, rfl⟩
  obtain ⟨t', ht'⟩ : ∃ t, (problem lateZero reversedLateZeroGraph {}).solve 8 = .solved t := ⟨_, rfl⟩
  refine ⟨⟨t, ht, ?_⟩, ⟨t, t', ht, ht', ?_⟩, ?_⟩
  · have hsorts : Direction.forward.Sorts (lateZeroGraph true) [0, 1, 2] := ⟨by decide, by decide⟩
    obtain ⟨-, -, -, hsolution⟩ := hgeneral (problem lateZero (lateZeroGraph true) {}) _
      (overwrites lateZero) (lateZeroGraph_acyclic true) rfl
    obtain ⟨-, -, hsweep⟩ := hsolution 6 t ht
    obtain ⟨facts, hfacts, hmatch⟩ := hsweep _ hsorts (fun _ => ∅, fun _ => ∅)
    exact ⟨facts, hfacts, (hmatch 2 (by decide)).2⟩
  · have h : Rearranged (lateZeroGraph true) reversedLateZeroGraph :=
      ⟨rfl, fun _ => List.Perm.mem_iff (by decide), fun _ => List.Perm.mem_iff (by decide)⟩
    obtain ⟨-, -, hsame⟩ := hrearranged lateZero (lateZeroGraph true) reversedLateZeroGraph
      {} {} (lateZeroGraph_acyclic true) rfl h
    exact (hsame 6 t 8 t' ht ht' 2).2
  · obtain ⟨-, hfold⟩ := hline lateZero (lateZeroGraph false) {} 0 [1, 2] lateZeroGraph_line
    exact ⟨_, rfl, hfold 6 _ rfl [1] 2 (by decide)⟩

/-- Assigns to a variable at the entry. -/
def preset : Method where
  name := "preset"
  vars := [⟨"x", .int⟩]
  body := [{ stmt := .assign (some 0) (.int 1) }, { stmt := .nop }]

def presetGraph : Graph StmtId :=
  (Graph.build? [.entry 0, .node 1, .edge ⟨.fallThrough, 0, 1⟩]).getD ∅

/-- On a straight line the statement at the entry counts as well: what goes on from the next node is
not what the statements after the entry make of the boundary fact. -/
theorem entry_statement_counts :
    presetGraph.StraightLine [0, 1] ∧ ∃ t, (problem preset presetGraph {}).solve 3 = .solved t ∧
      ((problem preset presetGraph {}).solution t).after.get? 1 ≠
        some ([1].foldl (fun fact n => effect preset (stmtAt preset n) fact) (boundary preset)) := by
  have hline : presetGraph.StraightLine [0, 1] := by
    refine ⟨by decide, fun a b => ?_, rfl⟩
    have hedges : presetGraph.edges = [⟨.fallThrough, 0, 1⟩] := rfl
    simp [Graph.Adjacent, hedges, List.infix_cons_iff]
    grind
  exact ⟨hline, _, rfl, by decide⟩

end FlowAnalysis.Constants
