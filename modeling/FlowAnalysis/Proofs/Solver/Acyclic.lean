import FlowAnalysis.Proofs.Graph.Acyclic
import FlowAnalysis.Proofs.Solver.Equations
import FlowAnalysis.Proofs.Solver.Recurrence
import Mathlib.Algebra.BigOperators.Ring.List
import Mathlib.Algebra.Group.Action.Defs
import Mathlib.Algebra.Order.BigOperators.Group.List
import Mathlib.Algebra.Order.Ring.Nat

/-!
# Solving without cycles

In a graph without cycles nothing needs to be known of an analysis.  A visit brings further visits
only to nodes of higher rank, so that there are finitely many; and the equations at a node leave no
choice once they hold at the nodes before it, so that they have at most one solution, which one pass
through the sorted nodes computes.

## Main definitions

- `Problem.load` — how many visits can still come
- `Problem.Passable` — facts can be passed along all edges
- `Problem.sweep` — one pass through a list of nodes

## Main statements

- `Problem.exists_solve_ends` — without cycles the solver comes to an end
- `Problem.sweep_eq_of_solves` — a pass through the sorted nodes computes any solution
- `Problem.Solves.unique` — there is at most one solution
-/

namespace FlowAnalysis.Problem

variable {N φ : Type} [DecidableEq N] {p : Problem N φ} {f : N → φ → φ} {s t : State N φ}
  {rank : N → Nat} {limit : Nat} {n : N}

/-! ## Coming to an end -/

/-- How many visits can come of a node that waits: its own, and those that follow from it. -/
def weight (p : Problem N φ) (rank : N → Nat) (n : N) : Nat :=
  (p.graph.edges.length + 1) ^ (p.graph.nodes.length - rank n)

/-- How many visits can still come, if `rank` grows along all edges. -/
def load (p : Problem N φ) (rank : N → Nat) (s : State N φ) : Nat :=
  (s.worklist.map (p.weight rank)).sum

theorem weight_pos (p : Problem N φ) (rank : N → Nat) (n : N) : 0 < p.weight rank n :=
  Nat.pow_pos (Nat.succ_pos _)

theorem length_next_le (p : Problem N φ) (n : N) : (p.next n).length ≤ p.graph.edges.length := by
  rw [next, List.length_map, Direction.leaving_eq_filter]
  exact List.length_filter_le _ _

theorem weight_mul_le (h : p.direction.Ranks p.graph rank) {m : N} (hm : m ∈ p.next n) :
    p.weight rank m * (p.graph.edges.length + 1) ≤ p.weight rank n := by
  obtain ⟨e, he, rfl⟩ := List.mem_map.mp hm
  obtain ⟨hedge, htail⟩ := Direction.mem_leaving.mp he
  have hlt := h.lt_of_edge e hedge
  have hle := h.le_length (p.direction.head e)
  rw [weight, ← Nat.pow_succ]
  exact Nat.pow_le_pow_right (Nat.succ_pos _) (by rw [← htail]; omega)

/-- A node weighs more than all the nodes that it leads to. -/
theorem sum_weight_next_lt (h : p.direction.Ranks p.graph rank) (n : N) :
    ((p.next n).map (p.weight rank)).sum < p.weight rank n := by
  -- There are no more nodes than edges, and each has at most its part of the weight.
  have hsum := List.sum_le_card_nsmul
    ((p.next n).map fun m => p.weight rank m * (p.graph.edges.length + 1)) (p.weight rank n) (by
      intro w hw
      obtain ⟨m, hm, rfl⟩ := List.mem_map.mp hw
      exact weight_mul_le h hm)
  rw [List.length_map, smul_eq_mul, List.sum_map_mul_right] at hsum
  have hlen := Nat.mul_le_mul_right (p.weight rank n) (length_next_le p n)
  have hpos := p.weight_pos rank n
  by_contra hge
  have hle := Nat.mul_le_mul_right (p.graph.edges.length + 1) (Nat.le_of_not_lt hge)
  rw [Nat.mul_add, Nat.mul_one, Nat.mul_comm] at hle
  omega

/-- Every visit makes the load smaller, whatever it does to the facts. -/
theorem Coherent.load_lt (h : p.Coherent s) (hr : p.direction.Ranks p.graph rank)
    (hw : s.worklist ≠ []) (ht : p.step s = .ok t) : p.load rank t < p.load rank s := by
  obtain ⟨n, rest, x, l, hrest, -, -, rfl⟩ := h.step_cases hw ht
  have hnext := sum_weight_next_lt hr n
  rw [load, load, hrest, pass, List.map_append, List.sum_append, List.map_cons, List.sum_cons]
  split
  · show (rest.map (p.weight rank)).sum + _ < _
    omega
  · show (rest.map (p.weight rank)).sum + 0 < _
    have := p.weight_pos rank n
    omega

theorem Reachable.run_ends (hr : p.direction.Ranks p.graph rank) (hs : p.Reachable s)
    (hload : p.load rank s ≤ limit) : (∃ t, p.run limit s = .solved t) ∨
      ∃ log, p.run limit s = .failed (.noEdgeTransfer p.analysis.id) log := by
  induction limit generalizing s with
  | zero =>
    cases hw : s.worklist with
    | nil => exact .inl ⟨_, run_of_worklist_eq_nil hw⟩
    | cons n rest =>
      rw [load, hw, List.map_cons, List.sum_cons] at hload
      have := p.weight_pos rank n
      omega
  | succ limit ih =>
    by_cases hw : s.worklist = []
    · exact .inl ⟨_, run_of_worklist_eq_nil hw⟩
    · cases ht : p.step s with
      | ok t =>
        have hlt := hs.coherent.load_lt hr hw ht
        rw [run_succ_of_step hw ht]
        exact ih (hs.step hw ht) (by omega)
      | error err =>
        obtain rfl := hs.coherent.error_eq ht
        exact .inr ⟨s.log, run_succ_of_error hw ht⟩

/-- Without cycles the solver comes to an end: with a solution, or because a fact cannot be passed
along an edge. -/
theorem exists_solve_ends (hac : p.graph.Acyclic) (hstart : p.start?.isSome) :
    ∃ limit, (∃ t, p.solve limit = .solved t) ∨
      ∃ log, p.solve limit = .failed (.noEdgeTransfer p.analysis.id) log := by
  obtain ⟨rank, hr⟩ := hac.exists_ranks p.direction
  obtain ⟨start, hs⟩ := Option.isSome_iff_exists.mp hstart
  have hbegin : p.begin = .ok (p.beginAt start) := begin_of_start hs
  refine ⟨p.load rank (p.beginAt start), ?_⟩
  simp only [solve, hbegin]
  exact (Reachable.begin hbegin).run_ends hr le_rfl

/-- Facts can be passed along every edge along which they change. -/
def Passable (p : Problem N φ) : Prop :=
  ∀ e ∈ p.graph.edges, p.analysis.needsEdgeTransfer e = true →
    ∀ x, p.analysis.edgeTransfer e x ≠ none

theorem Passable.inflow_ne_none (h : p.Passable) (out : N → φ) (n : N) :
    p.inflow out n ≠ none := by
  rw [Ne, inflow_eq_none_iff]
  rintro ⟨-, e, he, hcarried⟩
  obtain ⟨hneed, hnone⟩ := carried_eq_none_iff.mp hcarried
  exact h e (Direction.mem_arriving.mp he).1 hneed _ hnone

theorem exists_solve_eq_solved_of_acyclic (hac : p.graph.Acyclic) (hpass : p.Passable)
    (hstart : p.start?.isSome) : ∃ limit t, p.solve limit = .solved t := by
  obtain ⟨rank, hr⟩ := hac.exists_ranks p.direction
  refine exists_solve_eq_solved hstart fun s hs => ?_
  obtain hsolved | ⟨log, hfailed⟩ := hs.run_ends hr le_rfl
  · exact ⟨_, hsolved⟩
  · -- No visit fails, so the run has not failed either.
    have hok : ∀ s, p.Reachable s → ∃ t, p.step s = .ok t :=
      fun s hs => hs.coherent.exists_step fun n _ => hpass.inflow_ne_none _ n
    obtain ⟨t, ht⟩ | ⟨t, ht⟩ := hs.run_solved_or_unsettled hok (p.load rank s)
    · exact ⟨_, t, ht⟩
    · rw [hfailed] at ht
      cases ht

/-! ## Sweeping -/

/-- Passes through the nodes of a list once, in order, from given facts that come to the nodes and
given facts that go on from them. -/
def sweep (p : Problem N φ) (f : N → φ → φ) :
    List N → (N → φ) × (N → φ) → Option ((N → φ) × (N → φ))
  | [], facts => some facts
  | n :: ns, (ins, outs) =>
    (p.inflow outs n).bind fun x =>
      p.sweep f ns (Function.update ins n x, Function.update outs n (f n x))

variable {r r' : Solution N φ}

/-- The facts on both sides of some nodes are those of a solution. -/
def Matches (p : Problem N φ) (r : Solution N φ) (ns : List N) (facts : (N → φ) × (N → φ)) : Prop :=
  ∀ n ∈ ns, facts.1 n = p.incoming r n ∧ facts.2 n = p.outgoing r n

theorem Matches.update {ns : List N} {ins outs : N → φ} (h : p.Matches r ns (ins, outs))
    (hn : p.HoldsAt f r n) : p.Matches r (ns ++ [n]) (Function.update ins n (p.incoming r n),
      Function.update outs n (f n (p.incoming r n))) := by
  intro m hm
  by_cases hmn : m = n
  · subst hmn
    simp [hn.2]
  · have hold : m ∈ ns := by simpa [hmn] using hm
    simpa [hmn] using h m hold

theorem exists_sweep_of_matches (hac : p.graph.Acyclic) (hr : p.Solves f r) (ls : List N)
    {ns : List N} (hs : p.direction.Sorts p.graph (ls ++ ns)) {facts : (N → φ) × (N → φ)}
    (h : p.Matches r ls facts) :
    ∃ facts', p.sweep f ns facts = some facts' ∧ p.Matches r (ls ++ ns) facts' := by
  induction ns generalizing ls facts with
  | nil => exact ⟨facts, rfl, by simpa using h⟩
  | cons n ns ih =>
    have hn : p.HoldsAt f r n := hr n (hs.perm.mem_iff.mp (by simp))
    -- The facts that the node reads have been computed before.
    have hin : p.inflow facts.2 n = some (p.incoming r n) := by
      rw [← hn.1]
      exact inflow_congr fun e he => (h _ (hac.tail_mem hs he)).2
    obtain ⟨facts', hsweep, hmatch⟩ := ih (ls ++ [n]) (by simpa using hs) (h.update hn)
    exact ⟨facts', by simp [sweep, hin, hsweep], by simpa using hmatch⟩

/-- A pass through the sorted nodes, from whatever facts, computes a solution if there is one. -/
theorem sweep_eq_of_solves (hac : p.graph.Acyclic) (hr : p.Solves f r) {order : List N}
    (hs : p.direction.Sorts p.graph order) (facts : (N → φ) × (N → φ)) :
    ∃ facts', p.sweep f order facts = some facts' ∧ p.Matches r p.graph.nodes facts' := by
  have hnone : p.Matches r [] facts := by simp [Matches]
  obtain ⟨facts', hsweep, hmatch⟩ := exists_sweep_of_matches hac hr [] hs hnone
  exact ⟨facts', hsweep, fun n hn => hmatch n (hs.perm.mem_iff.mpr hn)⟩

/-- Without cycles there is at most one solution. -/
theorem Solves.unique (hac : p.graph.Acyclic) (hr : p.Solves f r) (hr' : p.Solves f r')
    (hn : n ∈ p.graph.nodes) :
    p.incoming r n = p.incoming r' n ∧ p.outgoing r n = p.outgoing r' n := by
  obtain ⟨order, hs⟩ := hac.exists_sorts p.direction
  let facts := (p.incoming r, p.outgoing r)
  obtain ⟨facts₁, hsweep₁, hmatch₁⟩ := sweep_eq_of_solves hac hr hs facts
  obtain ⟨facts₂, hsweep₂, hmatch₂⟩ := sweep_eq_of_solves hac hr' hs facts
  obtain rfl : facts₁ = facts₂ := Option.some.inj (hsweep₁.symm.trans hsweep₂)
  obtain ⟨hin₁, hout₁⟩ := hmatch₁ n hn
  obtain ⟨hin₂, hout₂⟩ := hmatch₂ n hn
  exact ⟨hin₁.symm.trans hin₂, hout₁.symm.trans hout₂⟩

end FlowAnalysis.Problem
