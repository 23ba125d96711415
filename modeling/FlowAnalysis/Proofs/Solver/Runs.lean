import FlowAnalysis.Solver.Run
import Mathlib.Logic.Function.Basic

/-!
# Runs of the solver

A visit is described by two functions, the facts that have come to the nodes and the facts that go
on from them.  The fact that comes to a node is a function of the latter; the ledger that the
solver passes along has no part in it.

## Main definitions

- `Problem.carried`, `Problem.inflow` — the fact that arrives over an edge, and at a node
- `Problem.Reachable` — the states before each visit
- `Problem.Coherent` — what holds of all of them, whatever the analysis

## Main statements

- `Problem.Coherent.step_cases` — all that a visit can do
- `Problem.Reachable.coherent` — reachable states are coherent
- `Problem.solve_eq_solved` — a solved problem has come to a reachable state without work left
-/

namespace FlowAnalysis

variable {N φ : Type} [DecidableEq N]

/-- Every decision kept in a ledger is the one that the analysis would make again. -/
def Ledger.Agrees (l : Ledger N) (a : Analysis N φ) : Prop :=
  ∀ e known, l.decisions.get? e = some known → known = a.needsEdgeTransfer e

namespace Problem

variable {p : Problem N φ} {s t : State N φ} {n : N} {limit : Nat}

/-! ## Arriving facts -/

/-- The fact that arrives over an edge, for given facts that go on from the nodes; there is none if
the analysis cannot pass facts along the edge. -/
def carried (p : Problem N φ) (out : N → φ) (e : Edge N) : Option φ :=
  if p.analysis.needsEdgeTransfer e then p.analysis.edgeTransfer e (out (p.direction.tail e))
  else some (out (p.direction.tail e))

/-- The fact that comes to a node, for given facts that go on from the nodes: the boundary fact
where the flow starts, and elsewhere the initial fact with what arrives over the edges merged in,
one edge after the other. -/
def inflow (p : Problem N φ) (out : N → φ) (n : N) : Option φ :=
  if p.start? = some n then some p.analysis.boundary
  else (p.direction.arriving p.graph n).foldlM
    (fun target e => (p.carried out e).map (p.analysis.merge · target)) p.analysis.initial

theorem carried_eq_none_iff {out : N → φ} {e : Edge N} :
    p.carried out e = none ↔ p.analysis.needsEdgeTransfer e = true ∧
      p.analysis.edgeTransfer e (out (p.direction.tail e)) = none := by
  unfold carried
  split <;> simp [*]

/-- No fact comes to a node exactly if one of its edges carries none. -/
theorem inflow_eq_none_iff {out : N → φ} : p.inflow out n = none ↔ p.start? ≠ some n ∧
    ∃ e ∈ p.direction.arriving p.graph n, p.carried out e = none := by
  unfold inflow
  split
  · next hn => simp [hn]
  · next hn =>
    rw [and_iff_right hn]
    generalize p.analysis.initial = target
    induction p.direction.arriving p.graph n generalizing target with
    | nil => simp
    | cons e es ih =>
      rw [List.foldlM_cons]
      simp only [List.mem_cons, exists_eq_or_imp]
      cases hx : p.carried out e with
      | none => simp
      | some x => simpa using ih (p.analysis.merge x target)

theorem consult_eq (l : Ledger N) (hl : l.Agrees p.analysis) (e : Edge N) :
    ∃ l', l'.Agrees p.analysis ∧ p.consult e l = (p.analysis.needsEdgeTransfer e, l') := by
  unfold consult
  split
  · cases hd : l.decisions.get? e with
    | some known => exact ⟨l, hl, by rw [hl e known hd]⟩
    | none =>
      refine ⟨_, ?_, rfl⟩
      intro e' known h
      rw [Table.get?_insert] at h
      split at h
      · next he => rw [← Option.some.inj h, he]
      · exact hl e' known h
  · refine ⟨_, ?_, rfl⟩
    exact hl

theorem cross_of_carried (out : Table N φ) {e : Edge N} {x : φ} {l : Ledger N}
    (hl : l.Agrees p.analysis) (hx : p.carried (p.factAt out) e = some x) :
    ∃ l', l'.Agrees p.analysis ∧ p.cross out e l = .ok (x, l') := by
  obtain ⟨l', hl', hc⟩ := consult_eq l hl e
  rw [carried] at hx
  simp only [cross, hc]
  cases hneed : p.analysis.needsEdgeTransfer e with
  | false =>
    simp only [hneed, Bool.false_eq_true, if_false, Option.some.injEq] at hx
    exact ⟨l', hl', by rw [hx]⟩
  | true =>
    simp only [hneed, if_true] at hx
    refine ⟨_, ?_, by simp only [hx]; rfl⟩
    exact hl'

theorem cross_of_carried_eq_none (out : Table N φ) {e : Edge N} {l : Ledger N}
    (hl : l.Agrees p.analysis) (hx : p.carried (p.factAt out) e = none) :
    p.cross out e l = .error (.noEdgeTransfer p.analysis.id) := by
  obtain ⟨l', hl', hc⟩ := consult_eq l hl e
  rw [carried] at hx
  simp only [cross, hc]
  cases hneed : p.analysis.needsEdgeTransfer e with
  | false => simp [hneed] at hx
  | true =>
    simp only [hneed, if_true] at hx
    simp only [hx]

/-- Gathering with a ledger that agrees with the analysis comes to what the edges carry: to a fact
and a ledger that still agrees, or, if some edge carries nothing, to an error. -/
theorem gather_eq (out : Table N φ) (es : List (Edge N)) (target : φ) {l : Ledger N}
    (hl : l.Agrees p.analysis) :
    match es.foldlM (fun target e => (p.carried (p.factAt out) e).map (p.analysis.merge · target))
      target with
    | some x => ∃ l', l'.Agrees p.analysis ∧ p.gather out es target l = .ok (x, l')
    | none => p.gather out es target l = .error (.noEdgeTransfer p.analysis.id) := by
  induction es generalizing target l with
  | nil => exact ⟨l, hl, rfl⟩
  | cons e es ih =>
    rw [List.foldlM_cons]
    cases hx : p.carried (p.factAt out) e with
    | none => simp [gather, cross_of_carried_eq_none out hl hx]
    | some x =>
      obtain ⟨l', hl', hc⟩ := cross_of_carried out hl hx
      simpa [gather, hc] using ih (p.analysis.merge x target) hl'

/-! ## Visits -/

theorem factAt_insert (table : Table N φ) (n : N) (x : φ) :
    p.factAt (table.insert n x) = Function.update (p.factAt table) n x := by
  funext m
  rw [factAt, Table.getD_insert, Function.update_apply]
  by_cases h : n = m
  · rw [if_pos h, if_pos h.symm]
  · rw [if_neg h, if_neg (Ne.symm h), factAt]

theorem keys_insert_of_mem {table : Table N φ} (h : n ∈ table.keys) (x : φ) :
    (table.insert n x).keys = table.keys := by
  rw [Table.keys_insert, if_pos h]

theorem next_mem {m : N} (h : m ∈ p.next n) : m ∈ p.graph.nodes := by
  obtain ⟨e, he, rfl⟩ := List.mem_map.mp h
  exact p.direction.head_mem (Direction.mem_leaving.mp he).1

/-- What holds before every visit, whatever the analysis: decisions that are kept are right, only
nodes of the graph are to be visited, every node has exactly one fact on each side, and the fact
where the flow starts is still the boundary fact. -/
structure Coherent (p : Problem N φ) (s : State N φ) : Prop where
  agrees : s.ledger.Agrees p.analysis
  worklist_mem : ∀ n ∈ s.worklist, n ∈ p.graph.nodes
  keys_inputs : s.inputs.keys = p.graph.nodes
  keys_outputs : s.outputs.keys = p.graph.nodes
  input_start : ∀ n, p.start? = some n → p.factAt s.inputs n = p.analysis.boundary

theorem Coherent.arrive_eq (h : Coherent p s) (n : N) :
    match p.inflow (p.factAt s.outputs) n with
    | some x => ∃ l, l.Agrees p.analysis ∧ p.arrive s n = .ok (x, l)
    | none => p.arrive s n = .error (.noEdgeTransfer p.analysis.id) := by
  by_cases hn : p.start? = some n
  · rw [inflow, arrive, if_pos hn, if_pos hn]
    exact ⟨s.ledger, h.agrees, by rw [h.input_start n hn]⟩
  · rw [inflow, arrive, if_neg hn, if_neg hn]
    exact gather_eq s.outputs _ _ h.agrees

/-- A visit records the fact that arrives at the first node of the worklist, and passes it through
the node. -/
theorem Coherent.step_eq_ok {rest : List N} {x : φ} (h : Coherent p s) (hr : s.worklist = n :: rest)
    (hx : p.inflow (p.factAt s.outputs) n = some x) :
    ∃ l, l.Agrees p.analysis ∧ p.step s = .ok (p.pass { s with worklist := rest } n x l) := by
  have harr : p.arrive { s with worklist := rest } n = p.arrive s n := rfl
  have ha := h.arrive_eq n
  simp only [hx] at ha
  obtain ⟨l, hl, ha⟩ := ha
  exact ⟨l, hl, by simp only [Problem.step, hr, visit, harr, ha]⟩

/-- A visit fails if no fact arrives. -/
theorem Coherent.step_eq_error {rest : List N} (h : Coherent p s) (hr : s.worklist = n :: rest)
    (hx : p.inflow (p.factAt s.outputs) n = none) :
    p.step s = .error (.noEdgeTransfer p.analysis.id) := by
  have harr : p.arrive { s with worklist := rest } n = p.arrive s n := rfl
  have ha := h.arrive_eq n
  simp only [hx] at ha
  simp only [Problem.step, hr, visit, harr, ha]

/-- All that a visit can do: the fact that comes to the first node of the worklist is recorded and
passed through the node, and the others keep their facts. -/
theorem Coherent.step_cases (h : Coherent p s) (hw : s.worklist ≠ []) (ht : p.step s = .ok t) :
    ∃ n rest x l, s.worklist = n :: rest ∧ p.inflow (p.factAt s.outputs) n = some x ∧
      l.Agrees p.analysis ∧ t = p.pass { s with worklist := rest } n x l := by
  obtain ⟨n, rest, hr⟩ := List.exists_cons_of_ne_nil hw
  cases hx : p.inflow (p.factAt s.outputs) n with
  | none =>
    rw [h.step_eq_error hr hx] at ht
    cases ht
  | some x =>
    obtain ⟨l, hl, hstep⟩ := h.step_eq_ok hr hx
    rw [hstep] at ht
    exact ⟨n, rest, x, l, hr, hx, hl, (Except.ok.inj ht).symm⟩

/-- A visit fails only if no fact comes to the first node of the worklist. -/
theorem Coherent.error_cases (h : Coherent p s) {err : SolveError} (ht : p.step s = .error err) :
    err = .noEdgeTransfer p.analysis.id ∧ ∃ n rest, s.worklist = n :: rest ∧
      p.inflow (p.factAt s.outputs) n = none := by
  cases hr : s.worklist with
  | nil => simp [Problem.step, hr] at ht
  | cons n rest =>
    cases hx : p.inflow (p.factAt s.outputs) n with
    | none =>
      rw [h.step_eq_error hr hx] at ht
      exact ⟨(Except.error.inj ht).symm, n, rest, rfl, hx⟩
    | some x =>
      obtain ⟨l, -, hstep⟩ := h.step_eq_ok hr hx
      rw [hstep] at ht
      cases ht

/-- The only error of a visit is that a fact cannot be passed along an edge. -/
theorem Coherent.error_eq (h : Coherent p s) {err : SolveError} (ht : p.step s = .error err) :
    err = .noEdgeTransfer p.analysis.id := (h.error_cases ht).1

/-- A visit goes through if the facts reach the first node of the worklist. -/
theorem Coherent.exists_step (h : Coherent p s)
    (hx : ∀ n ∈ s.worklist, p.inflow (p.factAt s.outputs) n ≠ none) : ∃ t, p.step s = .ok t := by
  cases hr : s.worklist with
  | nil => exact ⟨s, by rw [Problem.step, hr]⟩
  | cons n rest =>
    obtain ⟨x, hx⟩ := Option.ne_none_iff_exists'.mp (hx n (hr ▸ List.mem_cons_self))
    obtain ⟨l, -, hstep⟩ := h.step_eq_ok hr hx
    exact ⟨_, hstep⟩

theorem Coherent.step (h : Coherent p s) (hw : s.worklist ≠ []) (ht : p.step s = .ok t) :
    Coherent p t := by
  obtain ⟨n, rest, x, l, hr, hx, hl, rfl⟩ := h.step_cases hw ht
  have hn : n ∈ p.graph.nodes := h.worklist_mem n (hr ▸ List.mem_cons_self)
  refine ⟨hl, ?_, ?_, ?_, ?_⟩
  · intro m hm
    obtain hm | hm := List.mem_append.mp hm
    · exact h.worklist_mem m (hr ▸ List.mem_cons_of_mem n hm)
    · split at hm
      · exact next_mem hm
      · cases hm
  · exact (keys_insert_of_mem (h.keys_inputs ▸ hn) x).trans h.keys_inputs
  · exact (keys_insert_of_mem (h.keys_outputs ▸ hn) _).trans h.keys_outputs
  · intro m hm
    show p.factAt (s.inputs.insert n x) m = p.analysis.boundary
    rw [factAt_insert, Function.update_apply]
    split
    · next hmn =>
      -- The flow starts here, so what has come is the boundary fact once more.
      rw [inflow, ← hmn, if_pos hm] at hx
      exact (Option.some.inj hx).symm
    · exact h.input_start m hm

theorem factAt_beginAt_inputs (start n : N) : p.factAt (p.beginAt start).inputs n =
    if n ∈ p.graph.nodes ∧ n = start then p.analysis.boundary else p.analysis.initial := by
  rw [factAt, beginAt, Table.getD, Table.get?_tabulate]
  by_cases hn : n ∈ p.graph.nodes <;> simp [hn]

theorem factAt_beginAt_outputs (start n : N) :
    p.factAt (p.beginAt start).outputs n = p.analysis.initial := by
  rw [factAt, beginAt, Table.getD, Table.get?_tabulate]
  split <;> rfl

theorem coherent_beginAt {start : N} (h : p.start? = some start) :
    Coherent p (p.beginAt start) := by
  have hkeys : ∀ f : N → φ, (Table.tabulate p.graph.nodes f).keys = p.graph.nodes :=
    fun f => Table.keys_tabulate p.graph.nodes_nodup f
  refine ⟨?_, fun _ hn => hn, hkeys _, hkeys _, ?_⟩
  · intro e known he
    cases he
  · intro n hn
    obtain rfl : start = n := Option.some.inj (h.symm.trans hn)
    rw [factAt_beginAt_inputs, if_pos ⟨Direction.start?_mem h, rfl⟩]

/-! ## Reachable states -/

/-- The states in which the solver looks at the worklist: the one before the first visit, and the
one after each visit. -/
inductive Reachable (p : Problem N φ) : State N φ → Prop
  | begin {s : State N φ} : p.begin = .ok s → Reachable p s
  | step {s t : State N φ} : Reachable p s → s.worklist ≠ [] → p.step s = .ok t → Reachable p t

theorem begin_of_start {start : N} (h : p.start? = some start) :
    p.begin = .ok (p.beginAt start) := by
  simp only [begin, h]

theorem begin_eq_ok (h : p.begin = .ok s) : ∃ start, p.start? = some start ∧ s = p.beginAt start := by
  unfold begin at h
  split at h
  · next start hs => exact ⟨start, hs, (Except.ok.inj h).symm⟩
  · cases h

theorem Reachable.coherent (h : p.Reachable s) : p.Coherent s := by
  induction h with
  | begin h =>
    obtain ⟨start, hs, rfl⟩ := begin_eq_ok h
    exact coherent_beginAt hs
  | step _ hw ht ih => exact ih.step hw ht

theorem run_of_worklist_eq_nil (hw : s.worklist = []) : p.run limit s = .solved (p.settle s) := by
  cases limit <;> simp [run, hw]

theorem run_succ_of_step (hw : s.worklist ≠ []) (ht : p.step s = .ok t) :
    p.run (limit + 1) s = p.run limit t := by
  have hempty : ¬ s.worklist.isEmpty = true := by simpa using hw
  rw [run, if_neg hempty]
  simp only [ht]

theorem run_succ_of_error {err : SolveError} (hw : s.worklist ≠ []) (ht : p.step s = .error err) :
    p.run (limit + 1) s = .failed err s.log := by
  have hempty : ¬ s.worklist.isEmpty = true := by simpa using hw
  rw [run, if_neg hempty]
  simp only [ht]

/-- A property holds of a run that is done if it holds of runs without work left, and holds of a run
with one more visit in front whenever it holds of the run. -/
@[elab_as_elim]
theorem run_solved_induction {motive : Nat → State N φ → Prop} (h : p.run limit s = .solved t)
    (done : ∀ limit s, s.worklist = [] → t = p.settle s → motive limit s)
    (visit : ∀ limit s n rest s', s.worklist = n :: rest → p.step s = .ok s' →
      motive limit s' → motive (limit + 1) s) : motive limit s := by
  induction limit generalizing s with
  | zero =>
    by_cases hw : s.worklist = []
    · rw [run_of_worklist_eq_nil hw] at h
      exact done 0 s hw (Outcome.solved.inj h).symm
    · simp [run, hw] at h
  | succ limit ih =>
    cases hr : s.worklist with
    | nil =>
      rw [run_of_worklist_eq_nil hr] at h
      exact done _ s hr (Outcome.solved.inj h).symm
    | cons n rest =>
      have hw : s.worklist ≠ [] := by simp [hr]
      cases hs : p.step s with
      | ok s' =>
        rw [run_succ_of_step hw hs] at h
        exact visit limit s n rest s' hr hs (ih h)
      | error err =>
        rw [run_succ_of_error hw hs] at h
        cases h

/-- A run that is done has come to a state without work left, and reported so. -/
theorem run_eq_solved (hs : p.Reachable s) (h : p.run limit s = .solved t) :
    ∃ s', p.Reachable s' ∧ s'.worklist = [] ∧ t = p.settle s' := by
  revert hs
  refine run_solved_induction h (fun _ s hw ht hs => ?_) fun _ s n rest s' hr hstep ih hs => ?_
  · exact ⟨s, hs, hw, ht⟩
  · exact ih (hs.step (by simp [hr]) hstep)

/-- A solved problem has a place to start, and the run from there has solved it. -/
theorem run_of_solve_eq_solved (h : p.solve limit = .solved t) : ∃ start,
    p.begin = .ok (p.beginAt start) ∧ p.run limit (p.beginAt start) = .solved t := by
  unfold solve at h
  split at h
  · next s hs =>
    obtain ⟨start, -, rfl⟩ := begin_eq_ok hs
    exact ⟨start, hs, h⟩
  · cases h

theorem solve_eq_solved (h : p.solve limit = .solved t) :
    ∃ s, p.Reachable s ∧ s.worklist = [] ∧ t = p.settle s := by
  obtain ⟨start, hs, hrun⟩ := run_of_solve_eq_solved h
  exact run_eq_solved (.begin hs) hrun

/-- A problem with a place to start is solved if the run from there comes to an end. -/
theorem exists_solve_eq_solved (hstart : p.start?.isSome)
    (h : ∀ s, p.Reachable s → ∃ limit t, p.run limit s = .solved t) :
    ∃ limit t, p.solve limit = .solved t := by
  obtain ⟨start, hs⟩ := Option.isSome_iff_exists.mp hstart
  have hbegin : p.begin = .ok (p.beginAt start) := begin_of_start hs
  obtain ⟨limit, t, hrun⟩ := h _ (.begin hbegin)
  exact ⟨limit, t, by simp only [solve, hbegin, hrun]⟩

end Problem

end FlowAnalysis
