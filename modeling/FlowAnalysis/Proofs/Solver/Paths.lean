import FlowAnalysis.Analyses.Clamp
import FlowAnalysis.Graph.Build
import FlowAnalysis.Proofs.Solver.LeastSolution

/-!
# Solutions and paths

A path carries the boundary fact along: through each of its nodes, and along those of its edges on
which facts change.  If facts are merged by the join, and nodes and edges are monotone, then a
solution of the equations is above whatever the paths carry to a node, however long they are and
however often they go round in a loop.

## Main definitions

- `Direction.Leads` — a path leads from one node to another
- `Problem.conveyed` — the fact that a path carries to its last node
- `Analysis.Monotonic` — merging is the join, and nodes and edges are monotone

## Main statements

- `Problem.exists_conveyed_le` — solutions are above what a path carries
- `Problem.solution_covers_paths` — and so is what the solver returns
- `Clamp.monotonic_analysis` — sums that saturate are monotone
-/

namespace FlowAnalysis

variable {N φ : Type} [DecidableEq N]

/-- A path, given by its edges, leads from one node to another in the direction of the flow.  It may
go through nodes and edges any number of times, but it does not come to the node at which the flow
starts. -/
def Direction.Leads (d : Direction) (g : Graph N) : N → List (Edge N) → N → Prop
  | n, [], m => n = m
  | n, e :: es, m =>
    e ∈ g.edges ∧ d.tail e = n ∧ d.start? g ≠ some (d.head e) ∧ d.Leads g (d.head e) es m

instance Direction.decidableLeads (d : Direction) (g : Graph N) :
    ∀ n es m, Decidable (d.Leads g n es m)
  | n, [], m => inferInstanceAs (Decidable (n = m))
  | n, e :: es, m =>
    have := d.decidableLeads g (d.head e) es m
    inferInstanceAs (Decidable (e ∈ g.edges ∧ d.tail e = n ∧ d.start? g ≠ some (d.head e) ∧
      d.Leads g (d.head e) es m))

theorem Direction.Leads.mem_nodes {d : Direction} {g : Graph N} {es : List (Edge N)} {n m : N}
    (h : d.Leads g n es m) (hn : n ∈ g.nodes) : m ∈ g.nodes := by
  induction es generalizing n with
  | nil => exact h ▸ hn
  | cons e es ih =>
    obtain ⟨he, -, -, hrest⟩ := h
    exact ih hrest (d.head_mem he)

/-- Merging takes least upper bounds, the nodes pass facts on by monotone functions, and what can be
passed along an edge can be passed there if it is less, and does not become more.  The last is also
true of an edge along which nothing can be passed. -/
structure Analysis.Monotonic [SemilatticeSup φ] (a : Analysis N φ) (f : N → φ → φ) : Prop where
  merge_eq : ∀ x y, a.merge x y = x ⊔ y
  node_mono : ∀ n, Monotone (f n)
  edge_mono : ∀ e, a.needsEdgeTransfer e = true → ∀ x y y', x ≤ y → a.edgeTransfer e y = some y' →
    ∃ x', a.edgeTransfer e x = some x' ∧ x' ≤ y'

namespace Problem

variable {p : Problem N φ} {f : N → φ → φ} {es : List (Edge N)} {e : Edge N} {n m : N} {x : φ}

/-- The fact that comes to the last node of a path if a given one comes to the first: before each
edge it is passed through the node that the edge leaves from, and along the edge if facts change
there. -/
def conveyed (p : Problem N φ) (f : N → φ → φ) (es : List (Edge N)) (x : φ) : Option φ :=
  es.foldlM (fun x e => p.carried (f · x) e) x

theorem conveyed_cons (p : Problem N φ) (f : N → φ → φ) (e : Edge N) (es : List (Edge N)) (x : φ) :
    p.conveyed f (e :: es) x = (p.carried (f · x) e).bind (p.conveyed f es) :=
  List.foldlM_cons

variable [SemilatticeSup φ] {out out' : N → φ} {y : φ}

/-- Less at the tail of an edge means less at its head. -/
theorem exists_carried_le_of_monotonic (hm : p.analysis.Monotonic f)
    (hle : out (p.direction.tail e) ≤ out' (p.direction.tail e)) (hy : p.carried out' e = some y) :
    ∃ x, p.carried out e = some x ∧ x ≤ y := by
  unfold carried at hy ⊢
  split at hy
  · next hneed =>
    rw [if_pos hneed]
    exact hm.edge_mono e hneed _ _ y hle hy
  · next hneed =>
    rw [if_neg hneed]
    exact ⟨_, rfl, Option.some.inj hy ▸ hle⟩

/-- A path that sets out with no more than comes to its first node in a solution carries no more
than that to its last node. -/
theorem exists_conveyed_le (hm : p.analysis.Monotonic f) {r : Solution N φ} (hr : p.Solves f r)
    (hpath : p.direction.Leads p.graph n es m) (hx : x ≤ p.incoming r n) :
    ∃ y, p.conveyed f es x = some y ∧ y ≤ p.incoming r m := by
  induction es generalizing n x with
  | nil =>
    obtain rfl : n = m := hpath
    exact ⟨x, rfl, hx⟩
  | cons e es ih =>
    obtain ⟨he, rfl, hstart, hrest⟩ := hpath
    have hout : f (p.direction.tail e) x ≤ p.outgoing r (p.direction.tail e) := by
      rw [(hr _ (p.direction.tail_mem he)).2]
      exact hm.node_mono _ hx
    have harr : e ∈ p.direction.arriving p.graph (p.direction.head e) :=
      Direction.mem_arriving.mpr ⟨he, rfl⟩
    -- What the edge carries in the solution is merged into what comes to its head.
    obtain ⟨y, hy, hyle⟩ := exists_carried_le_inflow hm.merge_eq hstart harr
      (hr _ (p.direction.head_mem he)).1
    obtain ⟨z, hz, hzle⟩ : ∃ z, p.carried (f · x) e = some z ∧ z ≤ y :=
      exists_carried_le_of_monotonic hm hout hy
    obtain ⟨w, hw, hwle⟩ := ih hrest (hzle.trans hyle)
    exact ⟨w, by rw [conveyed_cons, hz, Option.bind_some, hw], hwle⟩

/-- Let merging be the join, and let nodes and edges be monotone.  Then for every path from where
the flow starts, of any length, what comes to its last node in the solution that the solver returns
is above the fact that the path carries there, and what goes on from the node is above what the node
makes of that fact. -/
theorem solution_covers_paths (hf : p.analysis.Overwrites f) (hm : p.analysis.Monotonic f)
    {limit : Nat} {t : State N φ} (h : p.solve limit = .solved t) {start : N}
    (hstart : p.start? = some start) (hpath : p.direction.Leads p.graph start es n) :
    n ∈ p.graph.nodes ∧ ∃ x, p.conveyed f es p.analysis.boundary = some x ∧
      x ≤ p.incoming (p.solution t) n ∧ f n x ≤ p.outgoing (p.solution t) n := by
  have hr := solves_of_solve_eq_solved hf h
  have hmem : start ∈ p.graph.nodes := Direction.start?_mem hstart
  have hn : n ∈ p.graph.nodes := hpath.mem_nodes hmem
  have hboundary : p.analysis.boundary ≤ p.incoming (p.solution t) start := by
    obtain ⟨hin, -⟩ := hr start hmem
    rw [inflow, if_pos hstart] at hin
    exact (Option.some.inj hin).le
  obtain ⟨x, hx, hle⟩ := exists_conveyed_le hm hr hpath hboundary
  refine ⟨hn, x, hx, hle, ?_⟩
  rw [(hr n hn).2]
  exact hm.node_mono n hle

end Problem

/-! ## Sums along paths -/

namespace Clamp

variable {a : Clamp}

theorem overwrites_analysis (a : Clamp) :
    a.analysis.Overwrites fun n => a.add (a.stmts.getD n 0) := by
  intro n x recorded
  exact ⟨rfl, decide_eq_true_iff⟩

theorem add_mono {x y : Int} (h : a.lo ≤ a.hi) (weight : Int) (hxy : x ≤ y) :
    a.add weight x ≤ a.add weight y := by
  unfold add toRange
  split_ifs <;> omega

/-- Sums that saturate in a range are monotone if the greatest of them are kept. -/
theorem monotonic_analysis (hmeet : a.meet = .max) (h : a.lo ≤ a.hi) :
    a.analysis.Monotonic fun n => a.add (a.stmts.getD n 0) where
  merge_eq x y := by
    simp only [analysis, hmeet]
    exact max_comm y x
  node_mono _ _ _ hxy := add_mono h _ hxy
  edge_mono e _ x y y' hxy hy := by
    obtain ⟨w, hw, rfl⟩ := Option.map_eq_some_iff.mp hy
    exact ⟨a.add w x, Option.map_eq_some_iff.mpr ⟨w, hw, rfl⟩, add_mono h w hxy⟩

/-- Counts the passes through node 2 and adds for jumps, but for no other edges. -/
def tally (d : Direction) : Clamp where
  id := "tally"
  direction := d
  meet := .max
  lo := 0
  hi := 20
  boundary := 1
  stmts := Table.empty.insert 2 3
  edges := Table.empty.insert .goto 5
  edgesNeeded := [.goto]

/-- Two edges of different kinds lead back from node 2 to node 1. -/
def tallyProblem (d : Direction) : Problem Nat Int where
  graph := (Graph.build? [.entry 0, .node 1, .node 2, .exit 3, .edge ⟨.fallThrough, 0, 1⟩,
    .edge ⟨.ifTrue, 1, 2⟩, .edge ⟨.goto, 2, 1⟩, .edge ⟨.fallThrough, 2, 1⟩,
    .edge ⟨.ifFalse, 1, 3⟩]).getD ∅
  analysis := (tally d).analysis

/-- A path from the entry to the exit that goes round twice, and takes another of the two edges each
time. -/
def tallyPath : List (Edge Nat) :=
  [⟨.fallThrough, 0, 1⟩, ⟨.ifTrue, 1, 2⟩, ⟨.goto, 2, 1⟩, ⟨.ifTrue, 1, 2⟩, ⟨.fallThrough, 2, 1⟩,
    ⟨.ifFalse, 1, 3⟩]

theorem solution_covers_paths_tally :
    (∃ t, (tallyProblem .forward).solve 17 = .solved t ∧
      (tallyProblem .forward).conveyed (fun n => (tally .forward).add
        ((tally .forward).stmts.getD n 0)) tallyPath 1 = some 12 ∧
      12 ≤ (tallyProblem .forward).incoming ((tallyProblem .forward).solution t) 3) ∧
    ∃ t, (tallyProblem .backward).solve 17 = .solved t ∧
      (tallyProblem .backward).conveyed (fun n => (tally .backward).add
        ((tally .backward).stmts.getD n 0)) tallyPath.reverse 1 = some 12 ∧
      12 ≤ (tallyProblem .backward).incoming ((tallyProblem .backward).solution t) 0 := by
  have hmono : ∀ d, (tally d).analysis.Monotonic fun n => (tally d).add
      ((tally d).stmts.getD n 0) := by
    intro d
    have hrange : (0 : Int) ≤ 20 := by decide
    exact monotonic_analysis rfl hrange
  obtain ⟨t, ht⟩ : ∃ t, (tallyProblem .forward).solve 17 = .solved t := ⟨_, rfl⟩
  obtain ⟨t', ht'⟩ : ∃ t, (tallyProblem .backward).solve 17 = .solved t := ⟨_, rfl⟩
  have hpath : Direction.forward.Leads (tallyProblem .forward).graph 0 tallyPath 3 := by decide
  have hpath' : Direction.backward.Leads (tallyProblem .backward).graph 3 tallyPath.reverse 0 := by
    decide
  have hsum : (tallyProblem .forward).conveyed (fun n => (tally .forward).add
      ((tally .forward).stmts.getD n 0)) tallyPath 1 = some 12 := rfl
  have hsum' : (tallyProblem .backward).conveyed (fun n => (tally .backward).add
      ((tally .backward).stmts.getD n 0)) tallyPath.reverse 1 = some 12 := rfl
  obtain ⟨-, x, hx, hle, -⟩ :=
    Problem.solution_covers_paths (overwrites_analysis (tally .forward)) (hmono .forward) ht rfl
      hpath
  obtain ⟨-, x', hx', hle', -⟩ :=
    Problem.solution_covers_paths (overwrites_analysis (tally .backward)) (hmono .backward) ht' rfl
      hpath'
  obtain rfl : 12 = x := Option.some.inj (hsum.symm.trans hx)
  obtain rfl : 12 = x' := Option.some.inj (hsum'.symm.trans hx')
  exact ⟨⟨t, ht, hsum, hle⟩, t', ht', hsum', hle'⟩

end Clamp

end FlowAnalysis
