import FlowAnalysis.Graph.Build
import FlowAnalysis.Proofs.Solver.Equations
import FlowAnalysis.Solver.Checked

/-!
# Lookups

No lookup of the solver misses.  Only nodes of the graph come on to the worklist, edges are filed
at every node of the graph, both ends of every edge are nodes of the graph, and for every node of
the graph, and for no other, a fact is recorded on either side.  So the solver with checked lookups
comes to what the solver comes to.

## Main statements

- `Checked.factAt_eq`, `Checked.arriving_eq`, `Checked.leaving_eq` — when a lookup finds something
- `Checked.step_eq`, `Checked.run_eq` — no lookup of a visit misses, and none of a run
- `Checked.step_eq_error` — lookups do miss on a visit to a node outside the graph
- `Problem.lookups_never_miss` — the same of a solve, and what its lookups rest on
-/

namespace FlowAnalysis

/-- A lookup that finds something is followed by what is made of it. -/
private theorem Miss.ok_bind {N α β : Type} (x : α) (f : α → Except (Miss N) β) :
    (.ok x >>= f) = f x := rfl

variable {N φ : Type} [DecidableEq N]

/-- Taking the first node off the worklist keeps a state coherent. -/
theorem Problem.Coherent.rest {p : Problem N φ} {s : State N φ} {n : N} {rest : List N}
    (h : p.Coherent s) (hw : s.worklist = n :: rest) : p.Coherent { s with worklist := rest } where
  agrees := h.agrees
  worklist_mem m hm := h.worklist_mem m (hw ▸ List.mem_cons_of_mem n hm)
  keys_inputs := h.keys_inputs
  keys_outputs := h.keys_outputs
  input_start := h.input_start

/-! ## Single lookups -/

namespace Checked

variable {p : Problem N φ} {g : Graph N} {s : State N φ} {outputs : Table N φ} {n : N}

theorem factAt_eq (p : Problem N φ) {facts : Table N φ} (h : n ∈ facts.keys) :
    factAt facts n = .ok (p.factAt facts n) := by
  rw [factAt, Table.get?_eq_some_getD h p.analysis.initial]
  rfl

theorem inEdges_eq (h : n ∈ g.nodes) : inEdges g n = .ok (g.inEdges n) := by
  obtain ⟨s, -, hs, -⟩ := Graph.slot?_eq_some h
  simp only [inEdges, slot, Graph.inEdges, hs]
  rfl

theorem outEdges_eq (h : n ∈ g.nodes) : outEdges g n = .ok (g.outEdges n) := by
  obtain ⟨s, -, hs, -⟩ := Graph.slot?_eq_some h
  simp only [outEdges, slot, Graph.outEdges, hs]
  rfl

theorem arriving_eq (d : Direction) (h : n ∈ g.nodes) :
    arriving d g n = .ok (d.arriving g n) := by
  cases d with
  | forward => exact inEdges_eq h
  | backward => exact outEdges_eq h

theorem leaving_eq (d : Direction) (h : n ∈ g.nodes) :
    leaving d g n = .ok (d.leaving g n) := by
  cases d with
  | forward => exact outEdges_eq h
  | backward => exact inEdges_eq h

/-! ## Lookups of a visit -/

theorem cross_eq (hout : outputs.keys = p.graph.nodes) {e : Edge N} (he : e ∈ p.graph.edges)
    (l : Ledger N) : cross p outputs e l = .ok (p.cross outputs e l) := by
  have htail : p.direction.tail e ∈ outputs.keys := hout ▸ p.direction.tail_mem he
  rw [cross, factAt_eq p htail, Miss.ok_bind, Problem.cross]
  obtain ⟨changes, l⟩ := p.consult e l
  cases changes with
  | false => rfl
  | true =>
    dsimp only
    cases p.analysis.edgeTransfer e (p.factAt outputs (p.direction.tail e)) <;> rfl

theorem gather_eq (hout : outputs.keys = p.graph.nodes) {es : List (Edge N)}
    (hes : ∀ e ∈ es, e ∈ p.graph.edges) (target : φ) (l : Ledger N) :
    gather p outputs es target l = .ok (p.gather outputs es target l) := by
  induction es generalizing target l with
  | nil => rfl
  | cons e es ih =>
    obtain ⟨he, hes⟩ := List.forall_mem_cons.mp hes
    rw [gather, cross_eq hout he, Miss.ok_bind, Problem.gather]
    cases p.cross outputs e l with
    | error err => rfl
    | ok x => exact ih hes _ _

theorem next_eq (h : n ∈ p.graph.nodes) : next p n = .ok (p.next n) := by
  rw [next, leaving_eq p.direction h]
  rfl

/-- Merging what arrives at a node leaves the fact that arrives as the recorded one, whether it has
been written or was there already. -/
theorem receive_eq [DecidableEq φ] (h : p.Coherent s) (hn : n ∈ p.graph.nodes) :
    receive p s n = .ok (match p.arrive s n with
      | .ok (x, l) => .ok (s.inputs.insert n x, l)
      | .error err => .error err) := by
  have hkey : n ∈ s.inputs.keys := h.keys_inputs ▸ hn
  have hsame : s.inputs.insert n (p.factAt s.inputs n) = s.inputs :=
    Table.insert_eq_self (Table.get?_eq_some_getD hkey _)
  unfold receive Problem.arrive
  by_cases hstart : p.start? = some n
  · simp only [hstart, if_true, hsame]
    rfl
  · have hedges : ∀ e ∈ p.direction.arriving p.graph n, e ∈ p.graph.edges :=
      fun e he => (Direction.mem_arriving.mp he).1
    simp only [hstart, if_false, arriving_eq p.direction hn, gather_eq h.keys_outputs hedges,
      Miss.ok_bind]
    cases p.gather s.outputs (p.direction.arriving p.graph n) p.analysis.initial s.ledger with
    | error err => rfl
    | ok x =>
      simp only [factAt_eq p hkey, Miss.ok_bind]
      split
      · next heq => rw [heq, hsame]; rfl
      · rfl

theorem pass_eq (h : p.Coherent s) (hn : n ∈ p.graph.nodes) (x : φ) (l : Ledger N) :
    pass p s n (s.inputs.insert n x) l = .ok (p.pass s n x l) := by
  have hkey : n ∈ s.inputs.keys := h.keys_inputs ▸ hn
  have hin : n ∈ (s.inputs.insert n x).keys := by rwa [Problem.keys_insert_of_mem hkey]
  have hfact : p.factAt (s.inputs.insert n x) n = x := by
    rw [Problem.factAt_insert, Function.update_self]
  unfold pass Problem.pass
  rw [factAt_eq p hin, factAt_eq p (h.keys_outputs ▸ hn), next_eq hn, hfact]
  simp only [Miss.ok_bind]
  split <;> rfl

theorem visit_eq [DecidableEq φ] (h : p.Coherent s) (hn : n ∈ p.graph.nodes) :
    visit p s n = .ok (p.visit s n) := by
  rw [visit, receive_eq h hn, Miss.ok_bind, Problem.visit]
  cases p.arrive s n with
  | error err => rfl
  | ok x =>
    simp only [pass_eq h hn, Miss.ok_bind]
    rfl

/-- No lookup of a visit misses. -/
theorem step_eq [DecidableEq φ] (h : p.Coherent s) : step p s = .ok (p.step s) := by
  unfold step Problem.step
  cases hw : s.worklist with
  | nil => rfl
  | cons n rest =>
    have hn : n ∈ p.graph.nodes := h.worklist_mem n (hw ▸ List.mem_cons_self)
    exact visit_eq (h.rest hw) hn

/-- The edges of a node outside the graph are looked up in vain, so a visit to such a node would
not come to an end. -/
theorem step_eq_error [DecidableEq φ] {rest : List N} (hw : s.worklist = n :: rest)
    (hn : n ∉ p.graph.nodes) : step p s = .error (.node n) := by
  have hstart : p.start? ≠ some n := fun h => hn (Direction.start?_mem h)
  have hslot : slot p.graph n = .error (.node n) := by rw [slot, Graph.slot?_eq_none hn]
  have harriving : arriving p.direction p.graph n = .error (.node n) := by
    unfold arriving
    cases p.direction with
    | forward => rw [inEdges, hslot]; rfl
    | backward => rw [outEdges, hslot]; rfl
  simp only [step, hw, visit, receive, hstart, if_false, harriving]
  rfl

/-! ## Lookups of a run -/

/-- No lookup of a run misses, however long it is. -/
theorem run_eq [DecidableEq φ] (hs : p.Reachable s) (limit : Nat) :
    run p limit s = .ok (p.run limit s) := by
  induction limit generalizing s with
  | zero => rfl
  | succ limit ih =>
    rw [run, Problem.run, step_eq hs.coherent]
    by_cases hw : s.worklist = []
    · simp [hw]
      rfl
    · have hempty : ¬ s.worklist.isEmpty = true := by simpa using hw
      simp only [if_neg hempty, Miss.ok_bind]
      cases ht : p.step s with
      | error err => rfl
      | ok t => exact ih (hs.step hw ht)

theorem solve_eq [DecidableEq φ] (p : Problem N φ) (limit : Nat) :
    solve p limit = .ok (p.solve limit) := by
  unfold solve Problem.solve
  cases hs : p.begin with
  | error err => rfl
  | ok s => exact run_eq (.begin hs) limit

end Checked

namespace Problem

/-- No lookup of a solve misses: with lookups that may miss, every visit and every solve, whether it
is done within its limit or not, comes to the same.  For before every visit only nodes of the graph
are to be visited, and facts are recorded on both sides for exactly the nodes of the graph, each
once; and an edge that is filed at a node joins nodes of the graph.  A solution, too, has one fact
on either side of every node, and no others. -/
theorem lookups_never_miss [DecidableEq φ] (p : Problem N φ) :
    (∀ s, p.Reachable s →
      (∀ n ∈ s.worklist, n ∈ p.graph.nodes) ∧
      (p.solution s).before.keys = p.graph.nodes ∧ (p.solution s).after.keys = p.graph.nodes ∧
      Checked.step p s = .ok (p.step s)) ∧
    (∀ n e, e ∈ p.graph.inEdges n ∨ e ∈ p.graph.outEdges n →
      e.source ∈ p.graph.nodes ∧ e.target ∈ p.graph.nodes) ∧
    (∀ limit, Checked.solve p limit = .ok (p.solve limit)) ∧
    p.graph.nodes.Nodup ∧
    ∀ limit t, p.solve limit = .solved t →
      (p.solution t).before.keys = p.graph.nodes ∧ (p.solution t).after.keys = p.graph.nodes := by
  refine ⟨fun s hs => ?_, fun n e he => ?_, Checked.solve_eq p, p.graph.nodes_nodup, ?_⟩
  · obtain ⟨hbefore, hafter⟩ := keys_solution hs.coherent
    exact ⟨hs.coherent.worklist_mem, hbefore, hafter, Checked.step_eq hs.coherent⟩
  · have hedge : e ∈ p.graph.edges := by
      obtain he | he := he
      · exact (Graph.mem_inEdges.mp he).1
      · exact (Graph.mem_outEdges.mp he).1
    exact ⟨p.graph.source_mem e hedge, p.graph.target_mem e hedge⟩
  · exact fun limit t ht => keys_of_solve_eq_solved ht

/-- Two nodes in a loop, one of them with a loop of its own and joined to the other by two edges,
and a node that has no edges. -/
def eddy (d : Direction) : Problem Nat Bool where
  graph := (Graph.build? [.node 3, .exit 2, .entry 1, .edge ⟨.ifTrue, 1, 2⟩, .edge ⟨.ifFalse, 1, 2⟩,
    .edge ⟨.goto, 2, 1⟩, .edge ⟨.goto, 1, 1⟩]).getD ∅
  analysis :=
    { id := "eddy", direction := d, boundary := true, initial := false
      merge := fun x target => x || target
      transfer := fun _ x recorded => .ofFact x recorded [] }

theorem lookups_never_miss_eddy :
    (∃ s, (eddy .forward).Reachable s ∧ s.worklist = [2, 2, 1] ∧
      ((eddy .forward).solution s).before.keys = [3, 2, 1] ∧
      ((eddy .forward).solution s).after.keys = [3, 2, 1] ∧
      Checked.step (eddy .forward) s = .ok ((eddy .forward).step s)) ∧
      ∃ t, (eddy .backward).solve 9 = .solved t ∧
        Checked.solve (eddy .backward) 9 = .ok (.solved t) ∧
        ((eddy .backward).solution t).before.keys = [3, 2, 1] ∧
        ((eddy .backward).solution t).after.keys = [3, 2, 1] := by
  obtain ⟨s, hs, hw⟩ : ∃ s, (eddy .forward).Reachable s ∧ s.worklist = [2, 2, 1] :=
    -- The third visit is to the entry, and it is the first to change anything.
    ⟨_, .step (.step (.step (.begin rfl) (by decide) rfl) (by decide) rfl) (by decide) rfl, rfl⟩
  obtain ⟨t, ht⟩ : ∃ t, (eddy .backward).solve 9 = .solved t := ⟨_, rfl⟩
  obtain ⟨-, hbefore, hafter, hstep⟩ := (lookups_never_miss (eddy .forward)).1 s hs
  obtain ⟨-, -, hsolve, -, hkeys⟩ := lookups_never_miss (eddy .backward)
  refine ⟨⟨s, hs, hw, hbefore, hafter, hstep⟩, t, ht, ?_, hkeys 9 t ht⟩
  rw [hsolve, ht]

end Problem

end FlowAnalysis
