import FlowAnalysis.Proofs.Solver.History

/-!
# Runs in step

Two problems may differ and be the same to the solver all the same: if the nodes stand in the same
order, the flow starts at the same node, the analyses do the same at each node, and the same facts
arrive at and go on to the same nodes.  Then the two runs keep in step, visit by visit, and come to
the same end.

## Main definitions

- `State.InStep`, `Outcome.InStep` — the same facts, the same nodes to visit, the same nodes visited
- `Problem.Congruent` — problems that are the same to the solver

## Main statements

- `Problem.Congruent.step_cases` — a visit of one run is answered by a visit of the other
- `Problem.Congruent.solve_inStep`, `Problem.Congruent.map_effect_history` — runs keep in step
-/

namespace FlowAnalysis

variable {N φ : Type}

/-- Two runs are in step: the same facts are recorded, the same nodes wait, and the same nodes have
been visited. -/
structure State.InStep (s t : State N φ) : Prop where
  inputs_eq : s.inputs = t.inputs
  outputs_eq : s.outputs = t.outputs
  worklist_eq : s.worklist = t.worklist
  visited_eq : s.visited = t.visited

/-- Two runs come to the same end; the error of one tells that of the other. -/
def Outcome.InStep (mirror : SolveError → SolveError) : Outcome N φ → Outcome N φ → Prop
  | .solved s, .solved t => s.InStep t
  | .failed err _, .failed err' _ => err' = mirror err
  | .unsettled s, .unsettled t => s.InStep t
  | _, _ => False

namespace Problem

variable [DecidableEq N] {p q : Problem N φ} {s t : State N φ}
  {mirror : SolveError → SolveError}

/-- Two problems are the same to the solver. -/
structure Congruent (p q : Problem N φ) : Prop where
  nodes_eq : p.graph.nodes = q.graph.nodes
  start_eq : p.start? = q.start?
  id_eq : p.analysis.id = q.analysis.id
  boundary_eq : p.analysis.boundary = q.analysis.boundary
  initial_eq : p.analysis.initial = q.analysis.initial
  transfer_eq : p.analysis.transfer = q.analysis.transfer
  inflow_eq : p.inflow = q.inflow
  next_eq : p.next = q.next

theorem settle_inStep (hst : s.InStep t) : (p.settle s).InStep (q.settle t) :=
  ⟨hst.inputs_eq, hst.outputs_eq, hst.worklist_eq, hst.visited_eq⟩

namespace Congruent

theorem factAt_eq (h : p.Congruent q) : p.factAt = q.factAt := by
  funext table n
  rw [factAt, factAt, h.initial_eq]

theorem begin_inStep (h : p.Congruent q) (start : N) :
    (p.beginAt start).InStep (q.beginAt start) := by
  constructor
  · simp only [beginAt, h.nodes_eq, h.boundary_eq, h.initial_eq]
  · simp only [beginAt, h.nodes_eq, h.initial_eq]
  · exact h.nodes_eq
  · rfl

theorem begin_cases (h : p.Congruent q) :
    (∃ s t, p.begin = .ok s ∧ q.begin = .ok t ∧ s.InStep t) ∨
      (p.begin = .error (.noStart p.direction) ∧ q.begin = .error (.noStart q.direction)) := by
  cases hs : p.start? with
  | none =>
    have hs' : q.start? = none := h.start_eq.symm.trans hs
    exact .inr ⟨by simp only [begin, hs], by simp only [begin, hs']⟩
  | some start =>
    have hs' : q.start? = some start := h.start_eq.symm.trans hs
    exact .inl ⟨_, _, begin_of_start hs, begin_of_start hs', h.begin_inStep start⟩

theorem pass_inStep (h : p.Congruent q) (hst : s.InStep t) (n : N) (x : φ) (l l' : Ledger N) :
    (p.pass s n x l).InStep (q.pass t n x l') := by
  constructor
  · simp only [pass, hst.inputs_eq]
  · simp only [pass, hst.outputs_eq, h.factAt_eq, h.transfer_eq]
  · simp only [pass, hst.outputs_eq, hst.worklist_eq, h.factAt_eq, h.transfer_eq, h.next_eq]
  · simp only [pass, hst.visited_eq]

/-- In states in step the same arrives. -/
theorem inflow_eq_of_inStep (h : p.Congruent q) (hst : s.InStep t) (n : N) :
    p.inflow (p.factAt s.outputs) n = q.inflow (q.factAt t.outputs) n := by
  rw [h.inflow_eq, h.factAt_eq, hst.outputs_eq]

/-- A visit of one run is answered by a visit of the other: both go through, and lead to states in
step, or both fail. -/
theorem step_cases (h : p.Congruent q) (hs : p.Coherent s) (ht : q.Coherent t) (hst : s.InStep t) :
    (∃ s' t', p.step s = .ok s' ∧ q.step t = .ok t' ∧ s'.InStep t') ∨
      (p.step s = .error (.noEdgeTransfer p.analysis.id) ∧
        q.step t = .error (.noEdgeTransfer q.analysis.id)) := by
  cases hr : s.worklist with
  | nil =>
    have hr' : t.worklist = [] := hst.worklist_eq.symm.trans hr
    exact .inl ⟨s, t, by rw [Problem.step, hr], by rw [Problem.step, hr'], hst⟩
  | cons n rest =>
    have hr' : t.worklist = n :: rest := hst.worklist_eq.symm.trans hr
    have hin := h.inflow_eq_of_inStep hst n
    cases hx : p.inflow (p.factAt s.outputs) n with
    | none => exact .inr ⟨hs.step_eq_error hr hx, ht.step_eq_error hr' (hin ▸ hx)⟩
    | some x =>
      -- The ledgers of the two runs need not have anything to do with each other.
      obtain ⟨l, -, hstep⟩ := hs.step_eq_ok hr hx
      obtain ⟨l', -, hstep'⟩ := ht.step_eq_ok hr' (hin ▸ hx)
      have hrest : State.InStep { s with worklist := rest } { t with worklist := rest } :=
        ⟨hst.inputs_eq, hst.outputs_eq, rfl, hst.visited_eq⟩
      exact .inl ⟨_, _, hstep, hstep', h.pass_inStep hrest n x l l'⟩

/-- The two visits report the same. -/
theorem effect_report_eq (h : p.Congruent q) (hs : p.Coherent s) (ht : q.Coherent t)
    (hst : s.InStep t) (n : N) : (p.report s n).effect = (q.report t n).effect := by
  refine Prod.ext rfl ?_
  show (p.report s n).changed? = (q.report t n).changed?
  rw [hs.report_changed?, ht.report_changed?, h.inflow_eq_of_inStep hst, h.transfer_eq,
    h.factAt_eq, hst.outputs_eq]

theorem run_inStep (h : p.Congruent q)
    (hedge : ∀ id, mirror (.noEdgeTransfer id) = .noEdgeTransfer id) (hs : p.Reachable s)
    (ht : q.Reachable t) (hst : s.InStep t) (limit : Nat) :
    (p.run limit s).InStep mirror (q.run limit t) := by
  induction limit generalizing s t with
  | zero =>
    rw [run, run, hst.worklist_eq]
    split
    · exact settle_inStep hst
    · exact hst
  | succ limit ih =>
    by_cases hw : s.worklist = []
    · rw [run_of_worklist_eq_nil hw, run_of_worklist_eq_nil (hst.worklist_eq ▸ hw)]
      exact settle_inStep hst
    · have hw' : t.worklist ≠ [] := hst.worklist_eq ▸ hw
      obtain ⟨s', t', hs', ht', hst'⟩ | ⟨hs', ht'⟩ := h.step_cases hs.coherent ht.coherent hst
      · rw [run_succ_of_step hw hs', run_succ_of_step hw' ht']
        exact ih (hs.step hw hs') (ht.step hw' ht') hst'
      · rw [run_succ_of_error hw hs', run_succ_of_error hw' ht', h.id_eq]
        exact (hedge _).symm

/-- For every limit on the number of visits the two runs come to the same end. -/
theorem solve_inStep (h : p.Congruent q)
    (hedge : ∀ id, mirror (.noEdgeTransfer id) = .noEdgeTransfer id)
    (hstart : mirror (.noStart p.direction) = .noStart q.direction) (limit : Nat) :
    (p.solve limit).InStep mirror (q.solve limit) := by
  obtain ⟨s, t, hs, ht, hst⟩ | ⟨hs, ht⟩ := h.begin_cases
  · simp only [solve, hs, ht]
    exact h.run_inStep hedge (.begin hs) (.begin ht) hst limit
  · simp only [solve, hs, ht]
    exact hstart.symm

theorem map_effect_reports (h : p.Congruent q) (hs : p.Reachable s) (ht : q.Reachable t)
    (hst : s.InStep t) (limit : Nat) :
    (p.reports limit s).map Report.effect = (q.reports limit t).map Report.effect := by
  induction limit generalizing s t with
  | zero => rfl
  | succ limit ih =>
    cases hr : s.worklist with
    | nil =>
      rw [reports_of_worklist_eq_nil hr, reports_of_worklist_eq_nil (hst.worklist_eq ▸ hr)]
    | cons n rest =>
      have hr' : t.worklist = n :: rest := hst.worklist_eq.symm.trans hr
      have hw : s.worklist ≠ [] := by simp [hr]
      have hw' : t.worklist ≠ [] := by simp [hr']
      have heffect := h.effect_report_eq hs.coherent ht.coherent hst n
      obtain ⟨s', t', hs', ht', hst'⟩ | ⟨hs', ht'⟩ := h.step_cases hs.coherent ht.coherent hst
      · rw [reports_succ_of_step hr hs', reports_succ_of_step hr' ht', List.map_cons,
          List.map_cons, heffect, ih (hs.step hw hs') (ht.step hw' ht') hst']
      · rw [reports_succ_of_error hr hs', reports_succ_of_error hr' ht', List.map_singleton,
          List.map_singleton, heffect]

/-- The same nodes are visited, and the same visits report changes. -/
theorem map_effect_history (h : p.Congruent q) (limit : Nat) :
    (p.history limit).map Report.effect = (q.history limit).map Report.effect := by
  obtain ⟨s, t, hs, ht, hst⟩ | ⟨hs, ht⟩ := h.begin_cases
  · simp only [history, hs, ht]
    exact h.map_effect_reports (.begin hs) (.begin ht) hst limit
  · simp only [history, hs, ht]

end Congruent

end Problem

end FlowAnalysis
