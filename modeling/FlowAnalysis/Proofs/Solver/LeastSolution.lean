import FlowAnalysis.Proofs.Solver.Ascent
import Mathlib.Order.Lattice

/-!
# Least solutions

Facts that form a join semilattice are merged by taking least upper bounds.  As long as no visit
lowers a fact, the recorded facts stay below what arrives now; and if the nodes are monotone this
means that the next visit does not lower one either.  So the solver climbs, from the least facts, to
the least solution of the equations.

## Main definitions

- `Analysis.Joins` — merging is the join, and edges are monotone
- `Problem.Rising` — recorded facts stay below what arrives

## Main statements

- `Problem.Rising.visit` — a visit keeps this up if its node does not take anything back
- `Problem.least_solution` — monotone analyses are solved, by the least solution
-/

namespace FlowAnalysis

variable {N φ : Type} [DecidableEq N]

/-- Merging takes least upper bounds, starting from the least fact, and the facts that change along
edges change by the monotone functions `g`. -/
structure Analysis.Joins [SemilatticeSup φ] (a : Analysis N φ) (g : Edge N → φ → φ) : Prop where
  initial_le : ∀ x, a.initial ≤ x
  merge_eq : ∀ x y, a.merge x y = x ⊔ y
  edgeTransfer_eq : ∀ e, a.needsEdgeTransfer e = true → ∀ x, a.edgeTransfer e x = some (g e x)
  edgeTransfer_mono : ∀ e, a.needsEdgeTransfer e = true → Monotone (g e)

namespace Problem

variable [SemilatticeSup φ] {p : Problem N φ} {f : N → φ → φ} {g : Edge N → φ → φ}
  {s t : State N φ} {out out' : N → φ} {n : N} {x y : φ}

/-! ## What arrives is monotone -/

theorem exists_carried_le (hj : p.analysis.Joins g) {e : Edge N}
    (hle : out (p.direction.tail e) ≤ out' (p.direction.tail e)) :
    ∃ x y, p.carried out e = some x ∧ p.carried out' e = some y ∧ x ≤ y := by
  unfold carried
  split
  · next hneed =>
    exact ⟨_, _, hj.edgeTransfer_eq e hneed _, hj.edgeTransfer_eq e hneed _,
      hj.edgeTransfer_mono e hneed hle⟩
  · exact ⟨_, _, rfl, rfl, hle⟩

private theorem exists_merged_le (hj : p.analysis.Joins g) {es : List (Edge N)}
    (hle : ∀ e ∈ es, out (p.direction.tail e) ≤ out' (p.direction.tail e)) (hxy : x ≤ y) :
    ∃ x' y', es.foldlM (fun target e => (p.carried out e).map (p.analysis.merge · target)) x =
        some x' ∧
      es.foldlM (fun target e => (p.carried out' e).map (p.analysis.merge · target)) y = some y' ∧
      x' ≤ y' := by
  induction es generalizing x y with
  | nil => exact ⟨x, y, rfl, rfl, hxy⟩
  | cons e es ih =>
    obtain ⟨a, b, ha, hb, hab⟩ := exists_carried_le hj (hle e List.mem_cons_self)
    have hmerge : p.analysis.merge a x ≤ p.analysis.merge b y := by
      rw [hj.merge_eq, hj.merge_eq]
      exact sup_le_sup hab hxy
    simpa [List.foldlM_cons, ha, hb] using
      ih (fun e he => hle e (List.mem_cons_of_mem _ he)) hmerge

/-- More going on from the nodes means more coming to each of them. -/
theorem exists_inflow_le (hj : p.analysis.Joins g)
    (hle : ∀ m ∈ p.graph.nodes, out m ≤ out' m) (n : N) :
    ∃ x y, p.inflow out n = some x ∧ p.inflow out' n = some y ∧ x ≤ y := by
  unfold inflow
  split
  · exact ⟨_, _, rfl, rfl, le_rfl⟩
  · refine exists_merged_le hj ?_ le_rfl
    intro e he
    exact hle _ (p.direction.tail_mem (Direction.mem_arriving.mp he).1)

theorem inflow_le (hj : p.analysis.Joins g) (hle : ∀ m ∈ p.graph.nodes, out m ≤ out' m)
    (hx : p.inflow out n = some x) (hy : p.inflow out' n = some y) : x ≤ y := by
  obtain ⟨x', y', hx', hy', hxy⟩ := exists_inflow_le hj hle n
  obtain rfl : x = x' := Option.some.inj (hx.symm.trans hx')
  obtain rfl : y = y' := Option.some.inj (hy.symm.trans hy')
  exact hxy

theorem inflow_ne_none (hj : p.analysis.Joins g) (out : N → φ) (n : N) :
    p.inflow out n ≠ none := by
  obtain ⟨x, -, hx, -⟩ := exists_inflow_le hj (fun m _ => le_refl (out m)) n
  simp [hx]

private theorem exists_carried_le_of_merged (hmerge : ∀ x y, p.analysis.merge x y = x ⊔ y)
    {es : List (Edge N)}
    (h : es.foldlM (fun target e => (p.carried out e).map (p.analysis.merge · target)) x = some y) :
    x ≤ y ∧ ∀ e ∈ es, ∃ z, p.carried out e = some z ∧ z ≤ y := by
  induction es generalizing x with
  | nil =>
    obtain rfl : x = y := Option.some.inj h
    exact ⟨le_rfl, by simp⟩
  | cons e es ih =>
    rw [List.foldlM_cons] at h
    cases ha : p.carried out e with
    | none => simp [ha] at h
    | some a =>
      simp only [ha, Option.map_some, Option.bind_eq_bind, Option.bind_some] at h
      obtain ⟨hle, hes⟩ := ih h
      rw [hmerge, sup_le_iff] at hle
      exact ⟨hle.2, List.forall_mem_cons.mpr ⟨⟨a, ha, hle.1⟩, hes⟩⟩

/-- Where facts are merged by the join, a fact arrives over each edge, and it is below all that
arrives; except where the flow starts. -/
theorem exists_carried_le_inflow (hmerge : ∀ x y, p.analysis.merge x y = x ⊔ y)
    (hn : p.start? ≠ some n) {e : Edge N} (he : e ∈ p.direction.arriving p.graph n)
    (hy : p.inflow out n = some y) : ∃ x, p.carried out e = some x ∧ x ≤ y := by
  rw [inflow, if_neg hn] at hy
  exact (exists_carried_le_of_merged hmerge hy).2 e he

/-! ## Rising runs -/

/-- No node has more recorded before it than arrives there now, nor more behind it than it makes of
what is recorded before it. -/
structure Rising (p : Problem N φ) (f : N → φ → φ) (s : State N φ) : Prop where
  inputs_le : ∀ n ∈ p.graph.nodes, ∀ x, p.inflow (p.factAt s.outputs) n = some x →
    p.factAt s.inputs n ≤ x
  outputs_le : ∀ n ∈ p.graph.nodes, p.factAt s.outputs n ≤ f n (p.factAt s.inputs n)

theorem rising_beginAt (hj : p.analysis.Joins g) {start : N} (hs : p.start? = some start) :
    p.Rising f (p.beginAt start) := by
  refine ⟨?_, ?_⟩
  · intro n _ x hx
    rw [factAt_beginAt_inputs]
    split
    · next heq =>
      rw [inflow, heq.2, if_pos hs] at hx
      exact (Option.some.inj hx).le
    · exact hj.initial_le x
  · intro n _
    rw [factAt_beginAt_outputs]
    exact hj.initial_le _

/-- A visit takes nothing back, and leaves the run rising, if its node makes at least as much of
what arrives now as of what was recorded. -/
theorem Rising.visit (hr : p.Rising f s) (hj : p.analysis.Joins g) (v : p.Visit f s t n x)
    (hn : n ∈ p.graph.nodes) (hstep : f n (p.factAt s.inputs n) ≤ f n x) :
    p.Rising f t ∧ p.Raises s t := by
  have hup : p.Raises s t := v.raises ((hr.outputs_le n hn).trans hstep)
  refine ⟨⟨?_, ?_⟩, hup⟩
  · -- What comes to a node has only grown with the visit.
    intro m hm y hy
    obtain ⟨z, hz⟩ := Option.ne_none_iff_exists'.mp (inflow_ne_none hj (p.factAt s.outputs) m)
    have hzy : z ≤ y := inflow_le hj (raises_iff.mp hup) hz hy
    rw [v.inputs_eq]
    by_cases hmn : m = n
    · subst hmn
      obtain rfl : x = z := Option.some.inj (v.inflow_eq.symm.trans hz)
      simpa using hzy
    · rw [Function.update_of_ne hmn]
      exact (hr.inputs_le m hm z hz).trans hzy
  · intro m hm
    rw [v.inputs_eq, v.outputs_eq]
    by_cases hmn : m = n
    · subst hmn
      simp
    · rw [Function.update_of_ne hmn, Function.update_of_ne hmn]
      exact hr.outputs_le m hm

section Climbing

/- Every visit of a node makes at least as much of what arrives as of what was recorded, as long as
no less arrives. -/
variable (hf : p.analysis.Overwrites f) (hj : p.analysis.Joins g)
  (hup : ∀ s t n x, p.Reachable s → s.worklist ≠ [] → p.step s = .ok t → p.Visit f s t n x →
    p.factAt s.inputs n ≤ x → f n (p.factAt s.inputs n) ≤ f n x)

include hf hj hup

theorem Reachable.rising (h : p.Reachable s) : p.Rising f s := by
  induction h with
  | begin h =>
    obtain ⟨start, hs, rfl⟩ := begin_eq_ok h
    exact rising_beginAt hj hs
  | @step s t hs hne ht ih =>
    obtain ⟨n, x, v⟩ := visit_of_step hf hs.coherent hne ht
    have hn := v.mem_nodes hs.coherent
    have hx : p.factAt s.inputs n ≤ x := ih.inputs_le n hn x v.inflow_eq
    exact (ih.visit hj v hn (hup s t n x hs hne ht v hx)).1

theorem Reachable.raises (h : p.Reachable s) (hne : s.worklist ≠ []) (ht : p.step s = .ok t) :
    p.Raises s t := by
  obtain ⟨n, x, v⟩ := visit_of_step hf h.coherent hne ht
  have hr := h.rising hf hj hup
  have hn := v.mem_nodes h.coherent
  have hx : p.factAt s.inputs n ≤ x := hr.inputs_le n hn x v.inflow_eq
  exact (hr.visit hj v hn (hup s t n x h hne ht v hx)).2

end Climbing

/-- Whatever goes on from a node during a run is below what goes on from it in any solution. -/
theorem Reachable.outputs_le (hf : p.analysis.Overwrites f) (hj : p.analysis.Joins g)
    (hm : ∀ n, Monotone (f n)) (h : p.Reachable s) {r : Solution N φ} (hsol : p.Solves f r) :
    ∀ n ∈ p.graph.nodes, p.factAt s.outputs n ≤ p.outgoing r n := by
  induction h with
  | begin h =>
    obtain ⟨start, -, rfl⟩ := begin_eq_ok h
    intro n _
    rw [factAt_beginAt_outputs]
    exact hj.initial_le _
  | step hs hne ht ih =>
    obtain ⟨n, x, v⟩ := visit_of_step hf hs.coherent hne ht
    intro m hmem
    rw [v.outputs_eq]
    by_cases hmn : m = n
    · subst hmn
      obtain ⟨hin, hout⟩ := hsol m hmem
      rw [Function.update_self, hout]
      exact hm m (inflow_le hj ih v.inflow_eq hin)
    · rw [Function.update_of_ne hmn]
      exact ih m hmem

theorem exists_step_of_joins (hj : p.analysis.Joins g) (h : p.Coherent s) :
    ∃ t, p.step s = .ok t :=
  h.exists_step fun n _ => inflow_ne_none hj _ n

/-- Let facts form a join semilattice without infinite ascents, let merging be the join, starting
from the least fact, and let nodes and edges be monotone.  Then the solver comes to an end, no visit
lowers a fact that goes on from a node, and what the solver returns is the least solution of the
equations. -/
theorem least_solution [WellFoundedGT φ] (hf : p.analysis.Overwrites f)
    (hj : p.analysis.Joins g) (hm : ∀ n, Monotone (f n)) (hstart : p.start?.isSome) :
    (∃ limit t, p.solve limit = .solved t) ∧
    (∀ s t, p.Reachable s → s.worklist ≠ [] → p.step s = .ok t → p.Raises s t) ∧
    ∀ limit t, p.solve limit = .solved t →
      p.Solves f (p.solution t) ∧
      ∀ r, p.Solves f r → ∀ n ∈ p.graph.nodes,
        p.incoming (p.solution t) n ≤ p.incoming r n ∧
        p.outgoing (p.solution t) n ≤ p.outgoing r n := by
  have hraises : ∀ s t, p.Reachable s → s.worklist ≠ [] → p.step s = .ok t → p.Raises s t :=
    fun s t hs hne ht => hs.raises hf hj (fun _ _ n _ _ _ _ _ hle => hm n hle) hne ht
  refine ⟨?_, hraises, ?_⟩
  · refine exists_solve_eq_solved hstart fun s hs => ?_
    exact exists_run_eq_solved Set.univ 0 hf (fun _ _ _ _ => Set.mem_univ _)
      (fun s hs => exists_step_of_joins hj hs.coherent)
      (fun s t hs _ hne ht => hraises s t hs hne ht) hs
  · intro limit t h
    have hsolves := solves_of_solve_eq_solved hf h
    refine ⟨hsolves, fun r hr n hn => ?_⟩
    obtain ⟨s, hs, -, rfl⟩ := solve_eq_solved h
    have hout : ∀ m ∈ p.graph.nodes, p.outgoing (p.solution s) m ≤ p.outgoing r m := by
      rw [outgoing_solution]
      exact hs.outputs_le hf hj hm hr
    exact ⟨inflow_le hj hout (hsolves n hn).1 (hr n hn).1, hout n hn⟩

/-- Which nodes of a loop are reached if the condition at its head never fails. -/
def unfailing : Problem Nat Bool where
  graph := (Graph.build? [.entry 0, .node 1, .node 2, .exit 3, .edge ⟨.fallThrough, 0, 1⟩,
    .edge ⟨.ifTrue, 1, 2⟩, .edge ⟨.goto, 2, 1⟩, .edge ⟨.ifFalse, 1, 3⟩]).getD ∅
  analysis :=
    { id := "unfailing", direction := .forward, boundary := true, initial := false
      merge := fun x target => x || target
      transfer := fun _ x recorded => .ofFact x recorded []
      needsEdgeTransfer := fun e => e.kind = .ifFalse
      edgeTransfer := fun _ _ => some false }

theorem least_solution_unfailing :
    ∃ t, unfailing.solve 8 = .solved t ∧ unfailing.Solves (fun _ x => x) (unfailing.solution t) ∧
      ∀ r, unfailing.Solves (fun _ x => x) r →
        unfailing.incoming (unfailing.solution t) 3 ≤ unfailing.incoming r 3 := by
  have hf : unfailing.analysis.Overwrites fun _ x => x := by
    intro n x recorded
    exact ⟨rfl, by simp [unfailing, Transfer.ofFact]⟩
  have hj : unfailing.analysis.Joins fun _ _ => false :=
    ⟨by decide, by decide, fun _ _ _ => rfl, fun _ _ _ _ _ => le_rfl⟩
  have h := least_solution hf hj (fun _ => monotone_id) (by decide)
  have hsolved : unfailing.solve 8 = .solved _ := rfl
  obtain ⟨hsolves, hleast⟩ := h.2.2 8 _ hsolved
  exact ⟨_, hsolved, hsolves, fun r hr => (hleast r hr 3 (by decide)).1⟩

end Problem

end FlowAnalysis
