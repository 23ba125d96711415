import FlowAnalysis.Proofs.Solver.Runs

/-!
# Histories of runs

A state tells how far the solver has come, but not how it came there; and a visit that fails leaves
no state behind.  The history of a run has a report on each visit, the failed one included: which
node it was, whether a change was reported, and about which edges the analysis was asked.

## Main definitions

- `Report` — what can be seen of a visit
- `Problem.history` — the reports on the visits of a run
- `Problem.questions` — the edges about which the analysis was asked

## Main statements

- `Problem.Coherent.report_changed?` — the ledger has no part in whether a change is reported
- `Problem.trails_of_solve_eq_solved` — the trails of the solver are read off its history
- `Problem.size_visited_le` — the limit bounds the visits
-/

namespace FlowAnalysis

/-- What can be seen of a visit. -/
structure Report (N : Type) where
  node : N
  /-- Whether a change was reported; nothing if the visit failed. -/
  changed? : Option Bool
  /-- The edges about which the analysis was asked. -/
  asks : List (Edge N)

/-- A report without the questions. -/
def Report.effect {N : Type} (r : Report N) : N × Option Bool := (r.node, r.changed?)

namespace Problem

variable {N φ : Type} [DecidableEq N] {p : Problem N φ} {s t : State N φ} {n : N} {limit : Nat}
  {out : Table N φ} {e : Edge N} {es : List (Edge N)} {x y : φ} {l l' : Ledger N}

/-- The questions that come up with an edge: one about the edge, unless it is decided already. -/
def inquiry (p : Problem N φ) (e : Edge N) (l : Ledger N) : List (Edge N) :=
  if p.options.decideEdgesOnce ∧ (l.decisions.get? e).isSome then [] else [e]

/-- The questions that come up while facts are gathered; there are no more of them after an
error. -/
def asks (p : Problem N φ) (out : Table N φ) : List (Edge N) → Ledger N → List (Edge N)
  | [], _ => []
  | e :: es, l =>
    p.inquiry e l ++
      match p.cross out e l with
      | .ok (_, l) => p.asks out es l
      | .error _ => []

/-- The report on a visit to a node. -/
def report (p : Problem N φ) (s : State N φ) (n : N) : Report N where
  node := n
  changed? :=
    match p.arrive s n with
    | .ok (fact, _) => some (p.analysis.transfer n fact (p.factAt s.outputs n)).changed
    | .error _ => none
  asks := if p.start? = some n then [] else p.asks s.outputs (p.direction.arriving p.graph n) s.ledger

/-- The reports on the visits from a state, but on no more of them than the limit. -/
def reports (p : Problem N φ) : Nat → State N φ → List (Report N)
  | 0, _ => []
  | limit + 1, s =>
    match s.worklist with
    | [] => []
    | n :: _ =>
      p.report s n ::
        match p.step s with
        | .ok t => p.reports limit t
        | .error _ => []

/-- The reports on the visits of a run, but on no more of them than the limit. -/
def history (p : Problem N φ) (limit : Nat) : List (Report N) :=
  match p.begin with
  | .ok s => p.reports limit s
  | .error _ => []

/-- The edges about which the analysis is asked during a run. -/
def questions (p : Problem N φ) (limit : Nat) : List (Edge N) := (p.history limit).flatMap Report.asks

theorem reports_of_worklist_eq_nil (hw : s.worklist = []) : p.reports limit s = [] := by
  cases limit <;> simp [reports, hw]

theorem reports_succ_of_step {rest : List N} (hr : s.worklist = n :: rest) (ht : p.step s = .ok t) :
    p.reports (limit + 1) s = p.report s n :: p.reports limit t := by
  simp only [reports, hr, ht]

theorem reports_succ_of_error {rest : List N} {err : SolveError} (hr : s.worklist = n :: rest)
    (ht : p.step s = .error err) : p.reports (limit + 1) s = [p.report s n] := by
  simp only [reports, hr, ht]

/-- Whether a change is reported depends on the facts that go on from the nodes, but not on the
ledger. -/
theorem Coherent.report_changed? (h : p.Coherent s) (n : N) :
    (p.report s n).changed? = (p.inflow (p.factAt s.outputs) n).map fun x =>
      (p.analysis.transfer n x (p.factAt s.outputs n)).changed := by
  have ha := h.arrive_eq n
  cases hx : p.inflow (p.factAt s.outputs) n with
  | none =>
    simp only [hx] at ha
    simp only [report, ha, Option.map_none]
  | some x =>
    simp only [hx] at ha
    obtain ⟨l, -, ha⟩ := ha
    simp only [report, ha, Option.map_some]

/-! ## What is taken down -/

theorem asked_consult (p : Problem N φ) (e : Edge N) (l : Ledger N) :
    (p.consult e l).2.asked.toList = l.asked.toList ++ p.inquiry e l := by
  unfold consult inquiry
  cases p.options.decideEdgesOnce with
  | false => simp
  | true => cases l.decisions.get? e <;> simp

/-- Of the questions and decisions, a fact that changes along an edge leaves those that came before
the change. -/
theorem ledger_of_cross (h : p.cross out e l = .ok (x, l')) :
    l'.asked = (p.consult e l).2.asked ∧ l'.decisions = (p.consult e l).2.decisions := by
  simp only [cross] at h
  split at h
  · next hc =>
    obtain ⟨-, rfl⟩ := Prod.mk.inj (Except.ok.inj h)
    rw [hc]
    exact ⟨rfl, rfl⟩
  · next hc =>
    split at h
    · obtain ⟨-, rfl⟩ := Prod.mk.inj (Except.ok.inj h)
      rw [hc]
      exact ⟨rfl, rfl⟩
    · cases h

/-- If nothing fails, the ledger has all the questions. -/
theorem asked_of_gather (h : p.gather out es x l = .ok (y, l')) :
    l'.asked.toList = l.asked.toList ++ p.asks out es l := by
  induction es generalizing x l with
  | nil =>
    obtain ⟨-, rfl⟩ := Prod.mk.inj (Except.ok.inj h)
    simp [asks]
  | cons e es ih =>
    cases hc : p.cross out e l with
    | error err => simp [gather, hc] at h
    | ok r =>
      obtain ⟨z, m⟩ := r
      -- The rest is gathered with the ledger that has the question about the first edge.
      have hm : m.asked.toList = l.asked.toList ++ p.inquiry e l := by
        rw [(ledger_of_cross hc).1, asked_consult]
      simp only [gather, hc] at h
      rw [ih h, hm, List.append_assoc, asks, hc]

theorem asks_report (p : Problem N φ) (s : State N φ) (n : N) : (p.report s n).asks =
    if p.start? = some n then []
    else p.asks s.outputs (p.direction.arriving p.graph n) s.ledger := rfl

theorem asked_of_arrive (h : p.arrive s n = .ok (x, l)) :
    l.asked.toList = s.ledger.asked.toList ++ (p.report s n).asks := by
  unfold arrive at h
  rw [asks_report]
  split at h
  · next hn =>
    obtain ⟨-, rfl⟩ := Prod.mk.inj (Except.ok.inj h)
    simp [hn]
  · next hn =>
    rw [if_neg hn]
    exact asked_of_gather h

/-- A visit that goes through passes on what arrives. -/
theorem exists_arrive_of_step {rest : List N} (hr : s.worklist = n :: rest)
    (ht : p.step s = .ok t) :
    ∃ x l, p.arrive s n = .ok (x, l) ∧ t = p.pass { s with worklist := rest } n x l := by
  have harr : p.arrive { s with worklist := rest } n = p.arrive s n := rfl
  simp only [Problem.step, hr, visit, harr] at ht
  split at ht
  · next x l hx => exact ⟨x, l, hx, (Except.ok.inj ht).symm⟩
  · cases ht

/-- A visit takes down the node, and the edges about which the analysis was asked. -/
theorem trails_of_step {rest : List N} (hr : s.worklist = n :: rest) (ht : p.step s = .ok t) :
    t.visited.toList = s.visited.toList ++ [n] ∧
      t.ledger.asked.toList = s.ledger.asked.toList ++ (p.report s n).asks := by
  obtain ⟨x, l, hx, rfl⟩ := exists_arrive_of_step hr ht
  exact ⟨Trail.toList_push s.visited n, asked_of_arrive hx⟩

theorem trails_of_run (h : p.run limit s = .solved t) :
    t.visited.toList = s.visited.toList ++ (p.reports limit s).map Report.node ∧
      t.ledger.asked.toList = s.ledger.asked.toList ++ (p.reports limit s).flatMap Report.asks := by
  refine run_solved_induction h (fun limit s hw ht => ?_) fun limit s n rest s' hr hs ih => ?_
  · simp [reports_of_worklist_eq_nil hw, ht, settle]
  · obtain ⟨hvisited, hasked⟩ := ih
    obtain ⟨hvisited', hasked'⟩ := trails_of_step hr hs
    rw [hvisited, hvisited', hasked, hasked', reports_succ_of_step hr hs]
    simp [report]

/-- The trails that a solved problem leaves are read off its history. -/
theorem trails_of_solve_eq_solved (h : p.solve limit = .solved t) :
    t.visited.toList = (p.history limit).map Report.node ∧
      t.ledger.asked.toList = p.questions limit := by
  obtain ⟨start, hs, hrun⟩ := run_of_solve_eq_solved h
  simp only [questions, history, hs]
  exact trails_of_run hrun

theorem length_reports_le (limit : Nat) (s : State N φ) : (p.reports limit s).length ≤ limit := by
  induction limit generalizing s with
  | zero => exact Nat.le_refl 0
  | succ limit ih =>
    cases hr : s.worklist with
    | nil => simp [reports_of_worklist_eq_nil hr]
    | cons n rest =>
      cases ht : p.step s with
      | error err => simp [reports_succ_of_error hr ht]
      | ok t =>
        rw [reports_succ_of_step hr ht, List.length_cons]
        exact Nat.succ_le_succ (ih t)

/-- A solved problem has taken no more visits than the limit. -/
theorem size_visited_le (h : p.solve limit = .solved t) : t.visited.size ≤ limit := by
  rw [← Trail.length_toList, (trails_of_solve_eq_solved h).1, List.length_map]
  unfold history
  split
  · exact length_reports_le limit _
  · exact Nat.zero_le _

end Problem

end FlowAnalysis
