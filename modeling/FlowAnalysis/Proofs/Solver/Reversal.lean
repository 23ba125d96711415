import FlowAnalysis.Proofs.Graph.Reversal
import FlowAnalysis.Proofs.Solver.Lockstep

/-!
# Reversed problems

Flow in one direction through a graph is flow in the other direction through the reversed graph.
To the solver the two problems are the same, so that it does the same with them at every visit; only
what it calls before and after a node, and where it looks for the start, is exchanged.

## Main definitions

- `Analysis.reverse`, `Problem.reverse` — the same flow in the other direction

## Main statements

- `Problem.congruent_reverse` — reversed problems are the same to the solver
- `Problem.reversed_runs_in_step` — reversed graphs, as they are built, are solved in step
-/

namespace FlowAnalysis

variable {N φ : Type}

/-- The analysis of the same flow in the other direction.  Edges are turned round before anything is
said about them. -/
def Analysis.reverse (a : Analysis N φ) : Analysis N φ :=
  { a with
    direction := a.direction.reverse
    needsEdgeTransfer := fun e => a.needsEdgeTransfer e.reverse
    edgeTransfer := fun e => a.edgeTransfer e.reverse }

/-- What holds before a node and what holds after it exchanged. -/
def Solution.reverse (s : Solution N φ) : Solution N φ := ⟨s.after, s.before⟩

/-- The error of the other direction. -/
def SolveError.reverse : SolveError → SolveError
  | .noStart d => .noStart d.reverse
  | .noEdgeTransfer id => .noEdgeTransfer id

namespace Problem

variable [DecidableEq N] {p : Problem N φ} {o : Options} {s t : State N φ}

/-- The same flow in the other direction through the reversed graph. -/
def reverse (p : Problem N φ) (o : Options) : Problem N φ := ⟨p.graph.reverse, p.analysis.reverse, o⟩

theorem carried_reverse (p : Problem N φ) (o : Options) (out : N → φ) (e : Edge N) :
    (p.reverse o).carried out e.reverse = p.carried out e := by
  have htail : (p.reverse o).direction.tail e.reverse = p.direction.tail e :=
    p.direction.tail_reverse e
  rw [carried, carried, htail]
  rfl

theorem inflow_reverse (p : Problem N φ) (o : Options) : (p.reverse o).inflow = p.inflow := by
  funext out n
  have hstart : (p.reverse o).start? = p.start? := p.direction.start?_reverse p.graph
  have harriving : (p.reverse o).direction.arriving (p.reverse o).graph n =
      (p.direction.arriving p.graph n).map Edge.reverse := p.direction.arriving_reverse p.graph n
  rw [inflow, inflow, hstart, harriving, List.foldlM_map]
  simp only [carried_reverse]
  rfl

theorem next_reverse (p : Problem N φ) (o : Options) : (p.reverse o).next = p.next := by
  funext n
  have hleaving : (p.reverse o).direction.leaving (p.reverse o).graph n =
      (p.direction.leaving p.graph n).map Edge.reverse := p.direction.leaving_reverse p.graph n
  rw [next, next, hleaving, List.map_map]
  exact List.map_congr_left fun e _ => p.direction.head_reverse e

/-- A reversed problem is the same to the solver. -/
theorem congruent_reverse (p : Problem N φ) (o : Options) : p.Congruent (p.reverse o) where
  nodes_eq := p.graph.nodes_reverse.symm
  start_eq := (p.direction.start?_reverse p.graph).symm
  id_eq := rfl
  boundary_eq := rfl
  initial_eq := rfl
  transfer_eq := rfl
  inflow_eq := (inflow_reverse p o).symm
  next_eq := (next_reverse p o).symm

theorem solution_reverse (p : Problem N φ) (o : Options) (h : s.InStep t) :
    (p.reverse o).solution t = (p.solution s).reverse := by
  have hdir : (p.reverse o).direction = p.direction.reverse := rfl
  unfold solution
  rw [hdir]
  cases p.direction with
  | forward => rw [h.inputs_eq, h.outputs_eq]; rfl
  | backward => rw [h.inputs_eq, h.outputs_eq]; rfl

/-- Let the commands that build a graph be reversed, and an analysis with them.  Reversed commands
build a graph whenever the commands do.  Whatever the options and whatever the limit on the number
of visits, the same nodes are then visited in the same order, and the same visits report changes;
the two runs come to the same end, with the error of the other direction if there is one; and
wherever the runs are in step, what is found before a node in one direction is found after it in the
other. -/
theorem reversed_runs_in_step (a : Analysis N φ) (o o' : Options)
    (commands : List (Graph.Command N)) :
    (Graph.build? (commands.map .reverse)).isSome = (Graph.build? commands).isSome ∧
    ∀ g g', Graph.build? commands = some g → Graph.build? (commands.map .reverse) = some g' →
      (∀ limit,
        (Problem.history ⟨g', a.reverse, o'⟩ limit).map Report.effect =
          (Problem.history ⟨g, a, o⟩ limit).map Report.effect ∧
        (Problem.solve ⟨g, a, o⟩ limit).InStep SolveError.reverse
          (Problem.solve ⟨g', a.reverse, o'⟩ limit)) ∧
      ∀ s t : State N φ, s.InStep t →
        Problem.solution ⟨g', a.reverse, o'⟩ t = (Problem.solution ⟨g, a, o⟩ s).reverse := by
  rw [Graph.build?_map_reverse]
  refine ⟨Option.isSome_map, ?_⟩
  intro g g' hg hg'
  obtain rfl : g.reverse = g' := by
    rw [hg, Option.map_some] at hg'
    exact Option.some.inj hg'
  have h : Congruent ⟨g, a, o⟩ ⟨g.reverse, a.reverse, o'⟩ := congruent_reverse ⟨g, a, o⟩ o'
  refine ⟨fun limit => ⟨(h.map_effect_history limit).symm, ?_⟩, ?_⟩
  · exact h.solve_inStep (fun _ => rfl) rfl limit
  · exact fun s t hst => solution_reverse ⟨g, a, o⟩ o' hst

/-- Tells whether a node is reached, but takes the opposite along every jump. -/
def contrary : Analysis Nat Bool where
  id := "contrary"
  direction := .forward
  boundary := true
  initial := false
  merge := fun x target => x || target
  transfer := fun _ x recorded => .ofFact x recorded []
  needsEdgeTransfer := fun e => e.kind = .goto
  edgeTransfer := fun _ x => some (!x)

def contraryCommands : List (Graph.Command Nat) :=
  [.entry 0, .node 1, .exit 2, .edge ⟨.fallThrough, 0, 1⟩, .edge ⟨.goto, 1, 1⟩, .edge ⟨.goto, 1, 2⟩]

def contraryGraph : Graph Nat := (Graph.build? contraryCommands).getD ∅

def reversedContraryGraph : Graph Nat := (Graph.build? (contraryCommands.map .reverse)).getD ∅

/-- Both runs come to an end after six visits.  The fact at node 1 goes round in the loop and over the
jump to node 2, where it is the opposite. -/
theorem reversed_runs_in_step_contrary :
    Graph.build? contraryCommands = some contraryGraph ∧
      Graph.build? (contraryCommands.map .reverse) = some reversedContraryGraph ∧
      ∃ s t, Problem.solve ⟨contraryGraph, contrary, {}⟩ 6 = .solved s ∧
        Problem.solve ⟨reversedContraryGraph, contrary.reverse, {}⟩ 6 = .solved t ∧
        s.worklist = [] ∧ t.worklist = [] ∧ s.visited.toList = [0, 1, 2, 1, 1, 2] ∧
        t.visited = s.visited ∧
        (Problem.solution ⟨contraryGraph, contrary, {}⟩ s).after.entries =
          [(0, true), (1, true), (2, false)] ∧
        Problem.solution ⟨reversedContraryGraph, contrary.reverse, {}⟩ t =
          (Problem.solution ⟨contraryGraph, contrary, {}⟩ s).reverse := by
  obtain ⟨-, hsame⟩ := reversed_runs_in_step contrary {} {} contraryCommands
  obtain ⟨hruns, hsolutions⟩ := hsame contraryGraph reversedContraryGraph rfl rfl
  obtain ⟨-, hstep⟩ := hruns 6
  have hfound : ∃ s, Problem.solve ⟨contraryGraph, contrary, {}⟩ 6 = .solved s ∧ s.worklist = [] ∧
      s.visited.toList = [0, 1, 2, 1, 1, 2] ∧
      (Problem.solution ⟨contraryGraph, contrary, {}⟩ s).after.entries =
        [(0, true), (1, true), (2, false)] := ⟨_, rfl, by decide +kernel⟩
  have hfound' : ∃ t, Problem.solve ⟨reversedContraryGraph, contrary.reverse, {}⟩ 6 = .solved t ∧
      t.worklist = [] := ⟨_, rfl, by decide +kernel⟩
  obtain ⟨s, hs, hw, hvisited, hvalues⟩ := hfound
  obtain ⟨t, ht, hw'⟩ := hfound'
  rw [hs, ht] at hstep
  exact ⟨rfl, rfl, s, t, hs, ht, hw, hw', hvisited, hstep.visited_eq.symm, hvalues,
    hsolutions s t hstep⟩

end Problem

end FlowAnalysis
