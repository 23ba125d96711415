import FlowAnalysis.Constants.Checked
import FlowAnalysis.Graph.Build
import FlowAnalysis.Proofs.Constants.Transfer
import FlowAnalysis.Proofs.Solver.Failure
import FlowAnalysis.Proofs.Solver.Recurrence

/-!
# Failures

Checked evaluation has no faults, on any facts: whenever it asks for the constant of a value the
value is one, and it knows how to merge any two values.  So constant propagation fails only where
the solver does, and there only for want of an entry.

## Main statements

- `Checked.evaluate_eq`, `Checked.effect_eq`, `Checked.mergeEntries_eq` — checked evaluation comes
  to what evaluation comes to
- `failures_exact` — when a solve fails, and that constant propagation does so only without an entry
-/

namespace FlowAnalysis.Constants

/-! ## Checked evaluation -/

namespace Checked

theorem join_eq (x y : Value) : join x y = .ok (x.join y) := by
  cases x <;> cases y <;> rfl

/-- Entries of all values can be merged into any fact, in whatever order they come. -/
theorem mergeEntries_eq (es : List (VarId × Value)) (target : Fact) :
    mergeEntries es target = .ok (Fact.mergeEntries es target) := by
  unfold mergeEntries Fact.mergeEntries
  simp only [join_eq]
  exact List.foldlM_pure

theorem dividesByZero_eq (op : BinaryOp) (divisor : Value) :
    dividesByZero op divisor = .ok (Constants.dividesByZero op divisor) := by
  unfold dividesByZero Constants.dividesByZero
  cases op.isDivision with
  | false => rfl
  | true =>
    cases divisor with
    | undef => rfl
    | nac => rfl
    | const c => simp; rfl

theorem evaluateBinary_eq (op : BinaryOp) (x y : Value) :
    evaluateBinary op x y = .ok (Constants.evaluateBinary op x y) := by
  unfold evaluateBinary Constants.evaluateBinary
  rw [dividesByZero_eq]
  cases Constants.dividesByZero op y with
  | true => rfl
  | false => cases x <;> cases y <;> rfl

/-- A function that is asked for constants only passes on the values that are none. -/
theorem evaluateUnary_eq (x : Value) (f : Int32 → Int32) : evaluateUnary x f =
    .ok (match x with | .const c => .const (f c) | x => x) := by
  cases x <;> rfl

theorem evaluate_eq (e : Expr VarId) (f : Fact) : evaluate e f = .ok (Constants.evaluate e f) := by
  cases e with
  | binary op a b => exact evaluateBinary_eq op (f.get a) (f.get b)
  | neg a =>
    rw [evaluate, evaluateUnary_eq, Constants.evaluate]
    cases f.get a <;> rfl
  | cast type a =>
    rw [evaluate, evaluateUnary_eq, Constants.evaluate]
    cases f.get a <;> rfl
  | _ => rfl

theorem effect_eq (m : Method) (s : Stmt VarId) (f : Fact) :
    effect m s f = .ok (Constants.effect m s f) := by
  unfold effect Constants.effect
  cases followed? m s with
  | none => rfl
  | some d =>
    simp only [evaluate_eq]
    rfl

end Checked

/-! ## Failing solves -/

theorem not_needsEdgeTransfer (m : Method) (g : Graph StmtId) (o : Options) :
    ¬ (problem m g o).NeedsEdgeTransfer := by
  rintro ⟨e, -, hneed, -⟩
  cases hneed

/-- Constant propagation fails exactly on graphs without an entry. -/
theorem reports_iff (m : Method) (g : Graph StmtId) (o : Options) (text : String) :
    (problem m g o).Reports text ↔
      g.entry? = none ∧ text = "forward dataflow solve on a CFG without entry" := by
  constructor
  · rintro ⟨limit, err, log, h, rfl⟩
    obtain ⟨hstart, rfl⟩ | ⟨-, hneeds, -⟩ := Problem.solve_eq_failed h
    · exact ⟨hstart, rfl⟩
    · exact absurd hneeds (not_needsEdgeTransfer m g o)
  · rintro ⟨hentry, rfl⟩
    have hstart : (problem m g o).start? = none := hentry
    exact ⟨0, _, _, Problem.solve_of_start?_eq_none hstart 0, rfl⟩

/-- Of an analysis whose own parts do not fail, a solve reports that there is nowhere to start
exactly if this is so.  If there is, it reports that facts cannot be passed along edges exactly if
the analysis has no way to do so and they change along an edge that does not lead to the start; and
it does this within as many visits as there are nodes.  It reports nothing else.  Constant
propagation fails exactly if there is no entry, and neither its statements nor its merges ever
fault. -/
theorem failures_exact {N φ : Type} [DecidableEq N] :
    (∀ p : Problem N φ, p.analysis.LacksEdgeTransfer ∨ p.analysis.HasEdgeTransfer →
      (p.direction = .forward →
        (p.Reports "forward dataflow solve on a CFG without entry" ↔ p.graph.entry? = none)) ∧
      (p.direction = .backward →
        (p.Reports "backward dataflow solve on a CFG without exit" ↔ p.graph.exit? = none)) ∧
      (p.start? = none → ∀ limit, p.solve limit = .failed (.noStart p.direction) ∅) ∧
      (p.start?.isSome →
        (p.Reports ("analysis '" ++ p.analysis.id ++ "' does not support edge transfer") ↔
          p.analysis.LacksEdgeTransfer ∧ p.NeedsEdgeTransfer) ∧
        (p.analysis.LacksEdgeTransfer → p.NeedsEdgeTransfer →
          ∀ limit, p.graph.nodes.length ≤ limit →
            ∃ log, p.solve limit = .failed (.noEdgeTransfer p.analysis.id) log) ∧
        ∀ text, p.Reports text →
          text = "analysis '" ++ p.analysis.id ++ "' does not support edge transfer")) ∧
    ∀ (m : Method) (g : Graph StmtId) (o : Options),
      (∀ text, (problem m g o).Reports text ↔
        g.entry? = none ∧ text = "forward dataflow solve on a CFG without entry") ∧
      (∀ s f, Checked.effect m s f = .ok (effect m s f)) ∧
      ∀ es target, Checked.mergeEntries es target = .ok (Fact.mergeEntries es target) := by
  refine ⟨fun p hp => ⟨?_, ?_, ?_, ?_⟩, fun m g o => ⟨?_, ?_, ?_⟩⟩
  · intro hd
    have h := Problem.reports_noStart_iff (p := p)
    rw [Problem.start?, hd] at h
    exact h
  · intro hd
    have h := Problem.reports_noStart_iff (p := p)
    rw [Problem.start?, hd] at h
    exact h
  · exact Problem.solve_of_start?_eq_none
  · intro hstart
    exact ⟨Problem.reports_noEdgeTransfer_iff hp hstart,
      fun hlacks hneeds _ => Problem.exists_solve_eq_failed hstart hlacks hneeds,
      fun _ => Problem.eq_of_reports hstart⟩
  · exact reports_iff m g o
  · exact Checked.effect_eq m
  · exact Checked.mergeEntries_eq

def falteringGraph : Graph Nat :=
  (Graph.build? [.entry 0, .node 1, .exit 2, .edge ⟨.fallThrough, 0, 1⟩, .edge ⟨.goto, 1, 1⟩,
    .edge ⟨.ifTrue, 1, 2⟩]).getD ∅

/-- A node in a loop negates what comes to it, and so never comes to rest; facts may change along
the edge out of the loop. -/
def faltering (d : Direction) (changes : Bool) : Problem Nat Bool where
  graph := falteringGraph
  analysis :=
    { id := "faltering", direction := d, boundary := true, initial := false
      merge := fun x target => x || target
      transfer := fun _ x recorded => .ofFact (!x) recorded []
      needsEdgeTransfer := fun e => changes && e.kind = .ifTrue }

theorem failures_exact_faltering :
    (∀ d limit t, (faltering d false).solve limit ≠ .solved t) ∧
      ∀ d, (faltering d true).analysis.LacksEdgeTransfer ∧
        (faltering d true).Reports "analysis 'faltering' does not support edge transfer" ∧
        ∃ log, (faltering d true).solve 3 = .failed (.noEdgeTransfer "faltering") log := by
  constructor
  · intro d
    have hrecurs : (faltering d false).recurs 7 15 = true := by cases d <;> decide +kernel
    exact Problem.never_solved_of_recurs hrecurs (by decide)
  · intro d
    have hlacks : (faltering d true).analysis.LacksEdgeTransfer := fun _ _ => rfl
    have hedge : ⟨.ifTrue, 1, 2⟩ ∈ falteringGraph.edges := by decide
    have hneeds : (faltering d true).NeedsEdgeTransfer :=
      ⟨⟨.ifTrue, 1, 2⟩, hedge, rfl, by cases d <;> decide⟩
    have hstart : (faltering d true).start?.isSome := by cases d <;> rfl
    have hnodes : falteringGraph.nodes.length ≤ 3 := by decide
    obtain ⟨-, -, -, h⟩ := (@failures_exact Nat Bool _).1 (faltering d true) (.inl hlacks)
    obtain ⟨hreports, hfails, -⟩ := h hstart
    exact ⟨hlacks, hreports.mpr ⟨hlacks, hneeds⟩, hfails hlacks hneeds 3 hnodes⟩

end FlowAnalysis.Constants
