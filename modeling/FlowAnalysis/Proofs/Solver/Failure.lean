import FlowAnalysis.Proofs.Solver.Runs

/-!
# Failing runs

A solve fails for two reasons only.  If there is no node at which the flow starts, it fails before
anything else.  Otherwise it fails if a fact changes along an edge and the analysis cannot pass it
along; and if the analysis cannot pass facts along any edge, this comes out while the nodes are
visited for the first time, since a node over one of whose edges nothing arrives stays where it is
until its visit fails.

## Main definitions

- `Analysis.LacksEdgeTransfer`, `Analysis.HasEdgeTransfer` — facts can be passed along no edge, or
  along all of them
- `Problem.NeedsEdgeTransfer` — facts change along an edge that the solver looks at
- `Problem.Reports` — a solve fails with a message

## Main statements

- `Problem.Coherent.run_eq_failed` — a node that no fact comes to is not got past
- `Problem.reports_noStart_iff`, `Problem.reports_noEdgeTransfer_iff` — when a solve fails, and with
  which message
-/

namespace FlowAnalysis

variable {N φ : Type}

/-- The analysis can pass facts along no edge. -/
def Analysis.LacksEdgeTransfer (a : Analysis N φ) : Prop := ∀ e x, a.edgeTransfer e x = none

/-- The analysis can pass facts along all edges. -/
def Analysis.HasEdgeTransfer (a : Analysis N φ) : Prop := ∀ e x, a.edgeTransfer e x ≠ none

theorem SolveError.message_noStart_ne (d : Direction) (id : String) :
    (noStart d).message ≠ (noEdgeTransfer id).message := by
  intro h
  have hhead := congrArg (·.toList.head?) h
  cases d <;> simp [message] at hhead

namespace Problem

variable [DecidableEq N] {p : Problem N φ} {s t : State N φ} {n : N} {limit : Nat}
  {err : SolveError} {log : Trail Message}

/-- Facts change along some edge over which they come to a node, other than where the flow
starts. -/
def NeedsEdgeTransfer (p : Problem N φ) : Prop :=
  ∃ e ∈ p.graph.edges, p.analysis.needsEdgeTransfer e = true ∧ p.start? ≠ some (p.direction.head e)

/-- A solve fails with a message. -/
def Reports (p : Problem N φ) (text : String) : Prop :=
  ∃ limit err log, p.solve limit = .failed err log ∧ err.message = text

/-! ## Why a run fails -/

/-- A run that fails has come to a state in which a node waits that no fact comes to. -/
theorem Reachable.exists_inflow_eq_none (hs : p.Reachable s)
    (h : p.run limit s = .failed err log) : err = .noEdgeTransfer p.analysis.id ∧
      ∃ s n, p.Reachable s ∧ n ∈ s.worklist ∧ p.inflow (p.factAt s.outputs) n = none := by
  induction limit generalizing s with
  | zero =>
    by_cases hw : s.worklist = []
    · rw [run_of_worklist_eq_nil hw] at h
      cases h
    · simp [run, hw] at h
  | succ limit ih =>
    by_cases hw : s.worklist = []
    · rw [run_of_worklist_eq_nil hw] at h
      cases h
    · cases ht : p.step s with
      | ok t =>
        rw [run_succ_of_step hw ht] at h
        exact ih (hs.step hw ht) h
      | error err' =>
        rw [run_succ_of_error hw ht] at h
        cases h
        obtain ⟨herr, n, rest, hrest, hnone⟩ := hs.coherent.error_cases ht
        exact ⟨herr, s, n, hs, hrest ▸ List.mem_cons_self, hnone⟩

/-- No fact comes to a node only because facts change along one of its edges. -/
theorem needsEdgeTransfer_of_inflow_eq_none {out : N → φ} (h : p.inflow out n = none) :
    p.NeedsEdgeTransfer ∧ ¬ p.analysis.HasEdgeTransfer := by
  obtain ⟨hn, e, he, hcarried⟩ := inflow_eq_none_iff.mp h
  obtain ⟨hneed, hnone⟩ := carried_eq_none_iff.mp hcarried
  obtain ⟨hmem, rfl⟩ := Direction.mem_arriving.mp he
  exact ⟨⟨e, hmem, hneed, hn⟩, fun hhas => hhas e _ hnone⟩

/-- Once the flow has started, a solve fails only because facts change along an edge. -/
theorem solve_eq_failed_of_start (hstart : p.start?.isSome)
    (h : p.solve limit = .failed err log) : err = .noEdgeTransfer p.analysis.id ∧
      p.NeedsEdgeTransfer ∧ ¬ p.analysis.HasEdgeTransfer := by
  obtain ⟨start, hs⟩ := Option.isSome_iff_exists.mp hstart
  have hbegin : p.begin = .ok (p.beginAt start) := begin_of_start hs
  simp only [solve, hbegin] at h
  obtain ⟨herr, s, n, -, -, hnone⟩ := (Reachable.begin hbegin).exists_inflow_eq_none h
  exact ⟨herr, needsEdgeTransfer_of_inflow_eq_none hnone⟩

theorem solve_eq_failed (h : p.solve limit = .failed err log) :
    (p.start? = none ∧ err = .noStart p.direction) ∨
      (err = .noEdgeTransfer p.analysis.id ∧ p.NeedsEdgeTransfer ∧
        ¬ p.analysis.HasEdgeTransfer) := by
  cases hstart : p.start? with
  | none =>
    simp only [solve, begin, hstart] at h
    cases h
    exact .inl ⟨rfl, rfl⟩
  | some start => exact .inr (solve_eq_failed_of_start (by simp [hstart]) h)

/-! ## When a run fails -/

theorem solve_of_start?_eq_none (h : p.start? = none) (limit : Nat) :
    p.solve limit = .failed (.noStart p.direction) ∅ := by
  simp only [solve, begin, h]

/-- A node that no fact comes to, whatever goes on from the others, is not got past: the run fails
no later than the visit to it that is next on the worklist. -/
theorem Coherent.run_eq_failed (hn : ∀ out, p.inflow out n = none) {ws rest : List N}
    (hs : p.Coherent s) (hw : s.worklist = ws ++ rest) (hmem : n ∈ ws)
    (hlimit : ws.length ≤ limit) :
    ∃ log, p.run limit s = .failed (.noEdgeTransfer p.analysis.id) log := by
  induction ws generalizing s rest limit with
  | nil => cases hmem
  | cons m ws ih =>
    obtain ⟨limit, rfl⟩ : ∃ k, limit = k + 1 :=
      Nat.exists_eq_add_one.mpr (Nat.lt_of_lt_of_le (Nat.succ_pos _) hlimit)
    have hne : s.worklist ≠ [] := by simp [hw]
    cases ht : p.step s with
    | error err =>
      obtain rfl := hs.error_eq ht
      exact ⟨s.log, run_succ_of_error hne ht⟩
    | ok t =>
      rw [run_succ_of_step hne ht]
      obtain ⟨k, tail, x, l, hk, hx, -, ht'⟩ := hs.step_cases hne ht
      rw [hw] at hk
      obtain ⟨rfl, rfl⟩ := List.cons.inj hk
      -- The visit went through, so it was to another node.
      have hmn : n ≠ m := by
        rintro rfl
        rw [hn] at hx
        cases hx
      have htail : ∃ queued, t.worklist = ws ++ (rest ++ queued) := by
        rw [ht', pass]
        exact ⟨_, List.append_assoc ..⟩
      obtain ⟨queued, hqueued⟩ := htail
      exact ih (hs.step hne ht) hqueued ((List.mem_cons.mp hmem).resolve_left hmn)
        (Nat.le_of_succ_le_succ hlimit)

/-- If facts change along an edge and the analysis can pass them along none, a solve fails within as
many visits as there are nodes. -/
theorem exists_solve_eq_failed (hstart : p.start?.isSome) (hlacks : p.analysis.LacksEdgeTransfer)
    (hneeds : p.NeedsEdgeTransfer) (hlimit : p.graph.nodes.length ≤ limit) :
    ∃ log, p.solve limit = .failed (.noEdgeTransfer p.analysis.id) log := by
  obtain ⟨start, hs⟩ := Option.isSome_iff_exists.mp hstart
  obtain ⟨e, he, hneed, hhead⟩ := hneeds
  have hnone : ∀ out, p.inflow out (p.direction.head e) = none := by
    intro out
    refine inflow_eq_none_iff.mpr ⟨hhead, e, Direction.mem_arriving.mpr ⟨he, rfl⟩, ?_⟩
    exact carried_eq_none_iff.mpr ⟨hneed, hlacks e _⟩
  simp only [solve, begin_of_start hs]
  have hworklist : (p.beginAt start).worklist = p.graph.nodes ++ [] := (List.append_nil _).symm
  exact (coherent_beginAt hs).run_eq_failed hnone hworklist (p.direction.head_mem he) hlimit

/-! ## Messages -/

/-- A solve reports that there is nowhere to start exactly if this is so. -/
theorem reports_noStart_iff :
    p.Reports (SolveError.noStart p.direction).message ↔ p.start? = none := by
  constructor
  · rintro ⟨limit, err, log, h, htext⟩
    obtain ⟨hstart, -⟩ | ⟨rfl, -⟩ := solve_eq_failed h
    · exact hstart
    · exact absurd htext.symm (SolveError.message_noStart_ne _ _)
  · intro hstart
    exact ⟨0, _, _, solve_of_start?_eq_none hstart 0, rfl⟩

/-- A solve reports that facts cannot be passed along an edge exactly if they change along one. -/
theorem reports_noEdgeTransfer_iff
    (h : p.analysis.LacksEdgeTransfer ∨ p.analysis.HasEdgeTransfer) (hstart : p.start?.isSome) :
    p.Reports (SolveError.noEdgeTransfer p.analysis.id).message ↔
      p.analysis.LacksEdgeTransfer ∧ p.NeedsEdgeTransfer := by
  constructor
  · rintro ⟨limit, err, log, hfailed, -⟩
    obtain ⟨-, hneeds, hhas⟩ := solve_eq_failed_of_start hstart hfailed
    exact ⟨h.resolve_right hhas, hneeds⟩
  · rintro ⟨hlacks, hneeds⟩
    obtain ⟨log, hfailed⟩ := exists_solve_eq_failed hstart hlacks hneeds (Nat.le_refl _)
    exact ⟨_, _, log, hfailed, rfl⟩

theorem eq_of_reports (hstart : p.start?.isSome) {text : String} (h : p.Reports text) :
    text = (SolveError.noEdgeTransfer p.analysis.id).message := by
  obtain ⟨limit, err, log, hfailed, rfl⟩ := h
  rw [(solve_eq_failed_of_start hstart hfailed).1]

end Problem

end FlowAnalysis
