import FlowAnalysis.Proofs.Constants.Slicing

/-!
# How many visits constant propagation takes

A variable that holds an integer can rise twice, from nothing to a constant and from there to any
integer, and no other variable is ever followed.  So without divisions a fact changes at most twice
for each such variable, and this bounds the visits whatever the graph and the order in which it was
built.

## Main statements

- `visits_bounded` — how many visits a method without divisions takes
-/

namespace FlowAnalysis.Constants

variable {m : Method} {g : Graph StmtId} {o : Options} {s t : State StmtId Fact}

/-- For a method without divisions constant propagation comes to an end.  It visits each node once,
and besides not more often than twice for every edge and every variable that holds an integer.  The
fact that goes on from a node changes no more often than twice for every such variable, and each
change moves the variables that it touches up. -/
theorem visits_bounded (g : Graph StmtId) (o : Options) (hdiv : DivisionFree m)
    (hentry : g.entry?.isSome) :
    (∃ t, (problem m g o).solve (g.nodes.length + 2 * g.edges.length * intCount m) = .solved t ∧
      t.visited.size ≤ g.nodes.length + 2 * g.edges.length * intCount m) ∧
    (∀ n limit, (problem m g o).changes n limit ≤ 2 * intCount m) ∧
    ∀ s t, (problem m g o).Reachable s → s.worklist ≠ [] → (problem m g o).step s = .ok t → ∀ n v,
      ((problem m g o).factAt s.outputs n).get v ≠ ((problem m g o).factAt t.outputs n).get v →
      ((problem m g o).factAt s.outputs n).get v < ((problem m g o).factAt t.outputs n).get v := by
  have hup : (problem m g o).RaisesFrom 0 := raisesFrom_zero_of_no_division hdiv.of_followed
  refine ⟨exists_solve_eq_solved_of_raisesFrom_zero hentry hup,
    (climbs_of_raisesFrom hup).changes_le, ?_⟩
  intro s t hs hw ht n v hne
  have hle := (hup s t hs (Nat.zero_le _) hw ht).factAt_le (overwrites m) hs hw ht n
  exact lt_of_le_of_ne (hle v) hne

/-- Counts up to a parameter. -/
def counting : Method where
  name := "counting"
  vars := [⟨"n", .int⟩, ⟨"i", .int⟩, ⟨"one", .int⟩, ⟨"l", .long⟩]
  params := [0]
  body := [{ stmt := .assign (some 1) (.int 0) }, { stmt := .assign (some 2) (.int 1) },
    { stmt := .branch ⟨.ge, 1, 0⟩ (some 5) },
    { stmt := .assign (some 1) (.binary (.arith .add) 1 2) }, { stmt := .jump (some 2) },
    { stmt := .ret (some 1) }]

/-- The loop, built from its end, so that facts arrive late. -/
def countingGraph : Graph StmtId :=
  (Graph.build? [.exit 5, .node 4, .node 3, .node 2, .node 1, .entry 0, .edge ⟨.goto, 4, 2⟩,
    .edge ⟨.fallThrough, 3, 4⟩, .edge ⟨.ifFalse, 2, 3⟩, .edge ⟨.ifTrue, 2, 5⟩,
    .edge ⟨.fallThrough, 1, 2⟩, .edge ⟨.fallThrough, 0, 1⟩]).getD ∅

theorem divisionFree_counting : DivisionFree counting := by
  intro s hs v op a b hd _
  simp only [counting, List.mem_cons, List.not_mem_nil, or_false] at hs
  rcases hs with rfl | rfl | rfl | rfl | rfl | rfl <;> cases hd
  rfl

/-- Twenty-one visits are made.  In the loop `i` is no constant, because it is not known how often it
is gone through, and `one` is. -/
theorem visits_bounded_counting :
    DivisionFree counting ∧ countingGraph.entry?.isSome ∧
      (∃ t, (problem counting countingGraph {}).solve (6 + 2 * 6 * 3) = .solved t ∧
        t.visited.size ≤ 6 + 2 * 6 * 3 ∧ t.worklist = [] ∧ t.visited.size = 21 ∧
        ((problem counting countingGraph {}).factAt t.outputs 1).get 1 = .const 0 ∧
        ((problem counting countingGraph {}).factAt t.outputs 3).get 1 = .nac ∧
        ((problem counting countingGraph {}).factAt t.outputs 3).get 2 = .const 1) ∧
      (problem counting countingGraph {}).changes 3 42 ≤ 2 * 3 ∧
      (problem counting countingGraph {}).changes 3 42 = 3 ∧
      ∀ s t, (problem counting countingGraph {}).Reachable s → s.worklist ≠ [] →
        (problem counting countingGraph {}).step s = .ok t →
        ((problem counting countingGraph {}).factAt s.outputs 3).get 1 ≠
          ((problem counting countingGraph {}).factAt t.outputs 3).get 1 →
        ((problem counting countingGraph {}).factAt s.outputs 3).get 1 <
          ((problem counting countingGraph {}).factAt t.outputs 3).get 1 := by
  have hentry : countingGraph.entry?.isSome := rfl
  obtain ⟨⟨t, ht, hsize⟩, hchanges, hup⟩ :=
    visits_bounded countingGraph {} divisionFree_counting hentry
  have hfound : ∃ u, (problem counting countingGraph {}).solve (6 + 2 * 6 * 3) = .solved u ∧
      u.worklist = [] ∧ u.visited.size = 21 ∧
      ((problem counting countingGraph {}).factAt u.outputs 1).get 1 = .const 0 ∧
      ((problem counting countingGraph {}).factAt u.outputs 3).get 1 = .nac ∧
      ((problem counting countingGraph {}).factAt u.outputs 3).get 2 = .const 1 :=
    ⟨_, rfl, by decide +kernel⟩
  obtain ⟨u, hu, hvalues⟩ := hfound
  obtain rfl : t = u := Outcome.solved.inj (ht.symm.trans hu)
  exact ⟨divisionFree_counting, hentry, ⟨t, ht, hsize, hvalues⟩, hchanges 3 42, by decide +kernel,
    fun s t hs hw ht => hup s t hs hw ht 3 1⟩

end FlowAnalysis.Constants
