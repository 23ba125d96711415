import FlowAnalysis.Proofs.Solver.Equations
import FlowAnalysis.Proofs.Solver.Recurrence
import Mathlib.Data.DFinsupp.WellFounded

/-!
# Runs in which facts only rise

If from some visit on no fact is lowered that goes on from a node, and facts cannot rise for ever,
then the worklist becomes empty: a visit raises a fact, or it changes nothing and the worklist is
shorter by one node.  Nothing is asked here of the way in which facts are computed.

## Main definitions

- `Problem.Raises` — a visit that lowers no fact
- `Problem.RaisesFrom` — from some visit on no fact is lowered
- `Problem.height` — what every visit of a rising run makes smaller

## Main statements

- `Problem.exists_run_eq_solved` — a run that rises from some visit on comes to an end
- `Problem.exists_last_lowering` — a run that comes to an end has a last visit that lowers a fact, if
  it has any
-/

namespace FlowAnalysis.Problem

variable {N φ : Type} [DecidableEq N] {p : Problem N φ} {f : N → φ → φ} {s t : State N φ}

/-- Between two states no fact is lowered that goes on from a node. -/
def Raises [LE φ] (p : Problem N φ) (s t : State N φ) : Prop :=
  ∀ n ∈ p.graph.nodes, p.outgoing (p.solution s) n ≤ p.outgoing (p.solution t) n

/-- After the first `k` visits no visit lowers a fact that goes on from a node. -/
def RaisesFrom [LE φ] (p : Problem N φ) (k : Nat) : Prop :=
  ∀ s t, p.Reachable s → k ≤ s.visited.size → s.worklist ≠ [] → p.step s = .ok t → p.Raises s t

theorem raises_iff [LE φ] : p.Raises s t ↔
    ∀ n ∈ p.graph.nodes, p.factAt s.outputs n ≤ p.factAt t.outputs n := by
  rw [Raises, outgoing_solution, outgoing_solution]

/-- A visit lowers nothing if the node that it visits passes on at least what it did. -/
theorem Visit.raises [Preorder φ] {n : N} {x : φ} (v : p.Visit f s t n x)
    (h : p.factAt s.outputs n ≤ f n x) : p.Raises s t := by
  rw [raises_iff]
  intro m _
  rw [v.outputs_eq]
  by_cases hm : m = n
  · subst hm
    simpa using h
  · rw [Function.update_of_ne hm]

theorem Visit.size_visited {n : N} {x : φ} (v : p.Visit f s t n x) :
    t.visited.size = s.visited.size + 1 := by
  rw [v.visited_eq]
  rfl

/-- If a visit lowers no fact, then none goes on from any node, of the graph or not, that is lower
than before. -/
theorem Raises.factAt_le [Preorder φ] (h : p.Raises s t) (hf : p.analysis.Overwrites f)
    (hs : p.Reachable s) (hw : s.worklist ≠ []) (ht : p.step s = .ok t) (n : N) :
    p.factAt s.outputs n ≤ p.factAt t.outputs n := by
  obtain ⟨m, x, v⟩ := visit_of_step hf hs.coherent hw ht
  by_cases hn : n = m
  · exact raises_iff.mp h n (hn ▸ v.mem_nodes hs.coherent)
  · rw [v.outputs_eq, Function.update_of_ne hn]

section Height

variable [PartialOrder φ] (C : Set φ)

/-- The states whose facts that go on from nodes lie in a set. -/
def Confined (p : Problem N φ) (s : State N φ) : Prop :=
  ∀ n ∈ p.graph.nodes, p.factAt s.outputs n ∈ C

/-- The facts that go on from the nodes, where a higher fact counts as less. -/
def depth (p : Problem N φ) (s : {s // p.Confined C s}) : {n // n ∈ p.graph.nodes} → Cᵒᵈ :=
  fun n => .toDual ⟨p.factAt s.1.outputs n.1, s.2 n.1 n.2⟩

/-- How many of the first `k` visits are to come, then how far the facts can still rise, and then
how many nodes wait. -/
def height (p : Problem N φ) (k : Nat) (s : {s // p.Confined C s}) :
    Nat × ({n // n ∈ p.graph.nodes} → Cᵒᵈ) × Nat :=
  (k - s.1.visited.size, p.depth C s, s.1.worklist.length)

/-- The order in which the height of a state goes down. -/
def Below (p : Problem N φ) (C : Set φ) :
    Nat × ({n // n ∈ p.graph.nodes} → Cᵒᵈ) × Nat →
      Nat × ({n // n ∈ p.graph.nodes} → Cᵒᵈ) × Nat → Prop :=
  Prod.Lex (· < ·) (Prod.Lex (· < ·) (· < ·))

theorem wellFounded_below [WellFoundedGT C] : WellFounded (p.Below C) := by
  have : Finite {n // n ∈ p.graph.nodes} := List.finite_toSet p.graph.nodes
  exact wellFounded_lt.prod_lex (wellFounded_lt.prod_lex wellFounded_lt)

theorem Visit.below {k : Nat} {n : N} {x : φ} (v : p.Visit f s t n x) (hn : n ∈ p.graph.nodes)
    (hs : p.Confined C s) (ht : p.Confined C t) (hup : k ≤ s.visited.size → p.Raises s t) :
    p.Below C (p.height C k ⟨t, ht⟩) (p.height C k ⟨s, hs⟩) := by
  have hsize := v.size_visited
  by_cases hk : k ≤ s.visited.size
  · have hfirst : k - t.visited.size = k - s.visited.size := by omega
    refine Prod.lex_def.mpr (.inr ⟨hfirst, Prod.lex_def.mpr ?_⟩)
    by_cases heq : f n x = p.factAt s.outputs n
    · -- Nothing has changed, and the node no longer waits.
      refine .inr ⟨?_, ?_⟩
      · funext m
        simp only [height, depth, v.outputs_eq, heq, Function.update_eq_self]
      · show t.worklist.length < s.worklist.length
        rw [v.unchanged heq, v.worklist_eq]
        exact Nat.lt_succ_self _
    · refine .inl (lt_of_le_of_ne ?_ ?_)
      · intro m
        exact raises_iff.mp (hup hk) m.1 m.2
      · intro hsame
        have hout : p.factAt t.outputs n = p.factAt s.outputs n :=
          congrArg Subtype.val (congrFun hsame ⟨n, hn⟩)
        rw [v.outputs_eq, Function.update_self] at hout
        exact heq hout
  · exact Prod.lex_def.mpr (.inl (by show k - t.visited.size < k - s.visited.size; omega))

end Height

/-- A run comes to an end if no visit fails, all facts that go on from nodes lie in a set without
infinite ascents, and from the visit number `k` on no visit lowers a fact. -/
theorem exists_run_eq_solved [PartialOrder φ] (C : Set φ) [WellFoundedGT C] (k : Nat)
    (hf : p.analysis.Overwrites f) (hC : ∀ s, p.Reachable s → p.Confined C s)
    (hok : ∀ s, p.Reachable s → ∃ t, p.step s = .ok t) (hup : p.RaisesFrom k)
    (hs : p.Reachable s) : ∃ limit t, p.run limit s = .solved t := by
  -- The induction is on the height, which is defined for confined states only.
  have key : ∀ u : {s // p.Confined C s}, p.Reachable u.1 →
      ∃ limit t, p.run limit u.1 = .solved t := by
    intro u
    induction u using (InvImage.wf (p.height C k) (wellFounded_below C)).induction with
    | _ u ih =>
      intro hu
      by_cases hw : u.1.worklist = []
      · exact ⟨0, p.settle u.1, run_of_worklist_eq_nil hw⟩
      · obtain ⟨t, ht⟩ := hok u.1 hu
        have hreach : p.Reachable t := hu.step hw ht
        obtain ⟨n, x, v⟩ := visit_of_step hf hu.coherent hw ht
        have hbelow := v.below C (v.mem_nodes hu.coherent) u.2 (hC t hreach)
          (fun hk => hup u.1 t hu hk hw ht)
        obtain ⟨limit, t', hrun⟩ := ih ⟨t, hC t hreach⟩ hbelow hreach
        exact ⟨limit + 1, t', (run_succ_of_step hw ht).trans hrun⟩
  exact key ⟨s, hC s hs⟩ hs

/-- In a run that comes to an end some visit is the last one that lowers a fact, if any does so. -/
theorem exists_last_lowering [LE φ] {limit : Nat} {u : State N φ} (hu : p.solve limit = .solved u) :
    ∃ k ≤ u.visited.size, p.RaisesFrom k ∧ (k = 0 ∨ ∃ s t, p.Reachable s ∧
      s.visited.size + 1 = k ∧ s.worklist ≠ [] ∧ p.step s = .ok t ∧ ¬ p.Raises s t) := by
  classical
  have hend : p.RaisesFrom u.visited.size := by
    intro s t hs hk hw _
    exact absurd (hs.size_lt hw (solve_size_visited hu)) (Nat.not_lt.mpr hk)
  have hex : ∃ k, p.RaisesFrom k := ⟨_, hend⟩
  refine ⟨Nat.find hex, Nat.find_min' hex hend, Nat.find_spec hex, ?_⟩
  -- The number is the least one, so the visit before it lowers a fact.
  cases hk : Nat.find hex with
  | zero => exact .inl rfl
  | succ k =>
    have hmin : ¬ p.RaisesFrom k := Nat.find_min hex (by omega)
    have hspec : p.RaisesFrom (k + 1) := hk ▸ Nat.find_spec hex
    simp only [RaisesFrom, not_forall] at hmin
    obtain ⟨s, t, hs, hle, hw, ht, hlower⟩ := hmin
    refine .inr ⟨s, t, hs, ?_, hw, ht, hlower⟩
    by_contra hne
    exact hlower (hspec s t hs (by omega) hw ht)

end FlowAnalysis.Problem
