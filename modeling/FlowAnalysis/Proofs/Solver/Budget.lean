import FlowAnalysis.Proofs.Solver.Equations
import FlowAnalysis.Proofs.Solver.History
import FlowAnalysis.Proofs.Solver.Recurrence
import Mathlib.Algebra.Group.Action.Defs
import Mathlib.Algebra.Order.BigOperators.Group.List
import Mathlib.Algebra.Order.Ring.Nat

/-!
# How many visits a run takes

If a fact that goes on from a node gets to a higher level whenever it changes, and there are only so
many levels, then a node changes no more often than that, and each change brings one more visit for
every edge over which the fact goes on.  If this is so only after some first visits, then those may
have brought one visit for every edge each.  Nothing is asked here of the way in which facts are
computed.

## Main definitions

- `Problem.Climbs` — changed facts get to higher levels, after some first visits
- `Problem.budget` — how many visits can still come
- `Problem.changes` — how often the fact that goes on from a node changes during a run

## Main statements

- `Problem.Climbs.budget_lt` — every visit is paid for
- `Problem.Climbs.exists_solve_eq_solved` — a limit that is enough for every climbing run
- `Problem.Climbs.changes_le` — no node changes more often than there are levels above the lowest
-/

namespace FlowAnalysis.Problem

variable {N φ : Type} [DecidableEq N] {p : Problem N φ} {f : N → φ → φ} {s t : State N φ}
  {level : φ → Nat} {height since limit : Nat} {n : N}

/-- No visit fails, the facts that go on from the nodes stand no higher than the height, and after
some first visits a visit that changes such a fact puts it on a higher level. -/
structure Climbs (p : Problem N φ) (level : φ → Nat) (height since : Nat) : Prop where
  exists_step : ∀ s, p.Reachable s → ∃ t, p.step s = .ok t
  level_le : ∀ s, p.Reachable s → ∀ n, level (p.factAt s.outputs n) ≤ height
  level_lt : ∀ s t, p.Reachable s → since ≤ s.visited.size → s.worklist ≠ [] →
    p.step s = .ok t → ∀ n, p.factAt s.outputs n ≠ p.factAt t.outputs n →
      level (p.factAt s.outputs n) < level (p.factAt t.outputs n)

/-! ## The budget -/

/-- How many visits can still come over an edge: one for each level that the fact at its tail has
above it. -/
def allowance (p : Problem N φ) (level : φ → Nat) (height : Nat) (s : State N φ) (e : Edge N) :
    Nat :=
  height - level (p.factAt s.outputs (p.direction.tail e))

/-- How many visits can still come: those to the nodes that wait, and those that changes bring. -/
def budget (p : Problem N φ) (level : φ → Nat) (height : Nat) (s : State N φ) : Nat :=
  s.worklist.length + (p.graph.edges.map (p.allowance level height s)).sum

theorem length_next (p : Problem N φ) (n : N) :
    (p.next n).length = (p.graph.edges.filter (p.direction.tail · = n)).length := by
  rw [next, List.length_map, Direction.leaving_eq_filter]

/-- Each visit takes one node off the worklist, and brings no more of them than there are edges. -/
theorem Reachable.length_worklist_add_size_le (hs : p.Reachable s) :
    s.worklist.length + s.visited.size ≤
      p.graph.nodes.length + p.graph.edges.length * s.visited.size := by
  induction hs with
  | begin h =>
    obtain ⟨start, -, rfl⟩ := begin_eq_ok h
    exact le_rfl
  | @step s t hs hw ht ih =>
    have hsize := hs.coherent.size_visited hw ht
    obtain ⟨n, rest, x, l, hn, -, -, rfl⟩ := hs.coherent.step_cases hw ht
    have hnext : (p.next n).length ≤ p.graph.edges.length := by
      rw [length_next]
      exact List.length_filter_le ..
    have hlength : (p.pass { s with worklist := rest } n x l).worklist.length ≤
        rest.length + p.graph.edges.length := by
      show (rest ++ _).length ≤ _
      rw [List.length_append]
      split
      · omega
      · simp
    rw [hn, List.length_cons] at ih
    rw [hsize, Nat.mul_succ]
    omega

private theorem sum_map_add_length_filter_le {α : Type} {l : List α} {q : α → Bool}
    {after before : α → Nat} (hle : ∀ a ∈ l, after a ≤ before a)
    (hlt : ∀ a ∈ l, q a = true → after a < before a) :
    (l.map after).sum + (l.filter q).length ≤ (l.map before).sum := by
  induction l with
  | nil => exact le_rfl
  | cons a l ih =>
    have hrest := ih (fun b hb => hle b (List.mem_cons_of_mem a hb))
      fun b hb => hlt b (List.mem_cons_of_mem a hb)
    have ha := hle a List.mem_cons_self
    rw [List.map_cons, List.map_cons, List.sum_cons, List.sum_cons, List.filter_cons]
    split
    · next hq =>
      have ha := hlt a List.mem_cons_self hq
      rw [List.length_cons]
      omega
    · omega

namespace Climbs

/-- Every visit is paid for, and so are the visits that it brings. -/
theorem budget_lt (h : p.Climbs level height since) (hf : p.analysis.Overwrites f)
    (hs : p.Reachable s) (hsince : since ≤ s.visited.size) (hw : s.worklist ≠ [])
    (ht : p.step s = .ok t) :
    p.budget level height t < p.budget level height s := by
  obtain ⟨n, x, v⟩ := visit_of_step hf hs.coherent hw ht
  have hlen : s.worklist.length = s.worklist.tail.length + 1 := by
    rw [v.worklist_eq, List.length_cons, List.tail_cons]
  by_cases heq : f n x = p.factAt s.outputs n
  · -- Nothing has changed, and the node no longer waits.
    have hsame : p.allowance level height t = p.allowance level height s := by
      funext e
      rw [allowance, allowance, v.outputs_eq, heq, Function.update_eq_self]
    rw [budget, budget, hsame, v.unchanged heq]
    omega
  · have hne : p.factAt s.outputs n ≠ p.factAt t.outputs n := by
      rw [v.outputs_eq, Function.update_self]
      exact Ne.symm heq
    have hup := h.level_lt s t hs hsince hw ht n hne
    have hheight := h.level_le t (hs.step hw ht) n
    have hsum : (p.graph.edges.map (p.allowance level height t)).sum + (p.next n).length ≤
        (p.graph.edges.map (p.allowance level height s)).sum := by
      rw [length_next]
      apply sum_map_add_length_filter_le
      · intro e _
        by_cases he : p.direction.tail e = n
        · rw [allowance, allowance, he]
          omega
        · rw [allowance, allowance, v.outputs_eq, Function.update_of_ne he]
      · intro e _ he
        have he : p.direction.tail e = n := by simpa using he
        rw [allowance, allowance, he]
        omega
    rw [budget, budget, v.changed heq, List.length_append]
    omega

theorem exists_run_eq_solved (h : p.Climbs level height since) (hf : p.analysis.Overwrites f)
    (hs : p.Reachable s) (hsince : since ≤ s.visited.size)
    (hlimit : p.budget level height s ≤ limit) :
    ∃ t, p.run limit s = .solved t := by
  induction limit generalizing s with
  | zero =>
    have hw : s.worklist = [] := by
      rw [budget] at hlimit
      exact List.eq_nil_of_length_eq_zero (by omega)
    exact ⟨_, run_of_worklist_eq_nil hw⟩
  | succ limit ih =>
    by_cases hw : s.worklist = []
    · exact ⟨_, run_of_worklist_eq_nil hw⟩
    · obtain ⟨t, ht⟩ := h.exists_step s hs
      have hlt := h.budget_lt hf hs hsince hw ht
      have hsize := hs.coherent.size_visited hw ht
      rw [run_succ_of_step hw ht]
      exact ih (hs.step hw ht) (by omega) (by omega)

/-- What the facts can still rise is no more than the height for every edge. -/
theorem budget_le (p : Problem N φ) (level : φ → Nat) (height : Nat) (s : State N φ) :
    p.budget level height s ≤ s.worklist.length + p.graph.edges.length * height := by
  have hsum := List.sum_le_card_nsmul (p.graph.edges.map (p.allowance level height s)) height (by
    intro k hk
    obtain ⟨e, -, rfl⟩ := List.mem_map.mp hk
    exact Nat.sub_le _ _)
  rw [List.length_map, smul_eq_mul] at hsum
  exact Nat.add_le_add_left hsum _

/-- A run that climbs after its first visits is done after one visit to each node, one visit over
each edge for each of the first visits, and one visit over each edge for each level. -/
theorem exists_solve_eq_solved (h : p.Climbs level height since) (hf : p.analysis.Overwrites f)
    (hstart : p.start?.isSome) :
    ∃ t, p.solve (p.graph.nodes.length + p.graph.edges.length * (since + height)) = .solved t ∧
      t.visited.size ≤ p.graph.nodes.length + p.graph.edges.length * (since + height) := by
  obtain ⟨s, hs, hsize, hfirst⟩ := exists_reachable_within h.exists_step hstart since
  have hrun : ∃ t, p.run (s.worklist.length + p.graph.edges.length * height) s = .solved t := by
    cases hfirst with
    | inl hw => exact ⟨_, run_of_worklist_eq_nil hw⟩
    | inr hsince => exact h.exists_run_eq_solved hf hs hsince.ge (budget_le p level height s)
  obtain ⟨t, ht⟩ := hrun
  have hsolve : p.solve
      (p.graph.nodes.length + p.graph.edges.length * (since + height)) = .solved t := by
    apply hs.solve_eq_solved_of_le ht
    have hcount := hs.length_worklist_add_size_le
    have hmul := Nat.mul_le_mul_left p.graph.edges.length hsize
    rw [Nat.mul_add]
    omega
  exact ⟨t, hsolve, size_visited_le hsolve⟩

end Climbs

/-! ## Changes -/

section Changes

variable [DecidableEq φ]

/-- How often the fact that goes on from a node changes during the visits from a state, but during
no more of them than the limit. -/
def changesFrom (p : Problem N φ) (n : N) : Nat → State N φ → Nat
  | 0, _ => 0
  | limit + 1, s =>
    if s.worklist.isEmpty then 0 else
    match p.step s with
    | .ok t =>
      (if p.factAt s.outputs n = p.factAt t.outputs n then 0 else 1) + p.changesFrom n limit t
    | .error _ => 0

/-- How often the fact that goes on from a node changes during a run. -/
def changes (p : Problem N φ) (n : N) (limit : Nat) : Nat :=
  match p.begin with
  | .ok s => p.changesFrom n limit s
  | .error _ => 0

theorem Climbs.changesFrom_add_level_le (h : p.Climbs level height 0) (hs : p.Reachable s) (n : N)
    (limit : Nat) : p.changesFrom n limit s + level (p.factAt s.outputs n) ≤ height := by
  have hle := h.level_le s hs n
  induction limit generalizing s with
  | zero => simpa [changesFrom] using hle
  | succ limit ih =>
    by_cases hw : s.worklist = []
    · simpa [changesFrom, hw] using hle
    · obtain ⟨t, ht⟩ := h.exists_step s hs
      have hreach := hs.step hw ht
      have hrest := ih hreach (h.level_le t hreach n)
      have hempty : ¬ s.worklist.isEmpty = true := by simpa using hw
      rw [changesFrom, if_neg hempty]
      simp only [ht]
      split
      · next heq =>
        rw [heq]
        omega
      · next hne =>
        have hlt := h.level_lt s t hs (Nat.zero_le _) hw ht n hne
        omega

/-- No node changes more often than there are levels above the lowest. -/
theorem Climbs.changes_le (h : p.Climbs level height 0) (n : N) (limit : Nat) :
    p.changes n limit ≤ height := by
  unfold changes
  split
  · next s hs =>
    have hle := h.changesFrom_add_level_le (.begin hs) n limit
    omega
  · exact Nat.zero_le _

end Changes

end FlowAnalysis.Problem
