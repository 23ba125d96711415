import FlowAnalysis.Proofs.Constants.Transfer
import FlowAnalysis.Proofs.Solver.Budget

/-!
# When constant propagation comes to an end

A variable that holds an integer can rise twice, from nothing to a constant and from there to any
integer, and no other variable is ever followed.  So constant propagation comes to an end if from
some visit on nothing is lowered any more, and it is known how soon.  The only visits that begin to
lower facts are those that withdraw a division.  What is withdrawn may have gone into a loop before,
and then goes round for ever.

## Main definitions

- `intCount` — the number of variables that hold integers
- `WithdrawsAt` — a visit at which a division is withdrawn
- `pulse`, `pulseGraph` — a method of which the analysis never comes to an end

## Main statements

- `Fact.Tracks.level_le` — facts about variables that hold integers stand no higher than twice their
  number
- `solved_iff_finally_raises` — when the analysis comes to an end, and how soon
- `pulse_never_solved` — it need not
-/

namespace FlowAnalysis.Constants

variable {m : Method} {g : Graph StmtId} {o : Options} {s t : State StmtId Fact}

/-! ## Levels -/

/-- The number of variables that hold integers. -/
def intCount (m : Method) : Nat := m.vars.countP (·.type.holdsInt)

private theorem card_filter_range {α : Type} (q : α → Bool) (l : List α) :
    ((Finset.range l.length).filter fun i => (l[i]?).any q = true).card = l.countP q := by
  induction l using List.reverseRecOn with
  | nil => rfl
  | append_singleton l a ih =>
    -- Before its end the longer list has the elements of the shorter one.
    have hinit : ((Finset.range l.length).filter fun i => ((l ++ [a])[i]?).any q = true) =
        (Finset.range l.length).filter fun i => (l[i]?).any q = true := by
      refine Finset.filter_congr fun i hi => ?_
      rw [List.getElem?_append_left (Finset.mem_range.mp hi)]
    have hlast : ((l ++ [a])[l.length]?).any q = q a := by simp
    rw [List.length_append, List.length_singleton, Finset.range_add_one, Finset.filter_insert,
      hlast, hinit, List.countP_append, ← ih]
    by_cases ha : q a = true
    · rw [if_pos ha, Finset.card_insert_of_notMem (by simp), List.countP_singleton, if_pos ha]
    · rw [if_neg ha, List.countP_singleton, if_neg ha, Nat.add_zero]

/-- Facts about variables that hold integers stand no higher than twice their number. -/
theorem Fact.Tracks.level_le {f : Fact} (h : f.Tracks (ints m)) :
    f.level m.vars.length ≤ 2 * intCount m := by
  have hzero : ∀ v ∈ Finset.range m.vars.length, (f.get v).rank ≠ 0 → m.holdsInt v = true := by
    intro v _ hv
    apply h v
    intro hu
    exact hv (by rw [hu]; rfl)
  have hsum := Finset.sum_le_card_nsmul
    ((Finset.range m.vars.length).filter fun v => m.holdsInt v = true) (fun v => (f.get v).rank) 2
    fun v _ => (f.get v).rank_le_two
  rw [Finset.sum_filter_of_ne hzero, smul_eq_mul, Nat.mul_comm] at hsum
  have hcard : ((Finset.range m.vars.length).filter fun v => m.holdsInt v = true).card =
      intCount m := card_filter_range (fun x : Var => x.type.holdsInt) m.vars
  rwa [hcard] at hsum

/-! ## Visits -/

/-- The visit from `s` to `t` is one of a division that is withdrawn. -/
def WithdrawsAt (m : Method) (g : Graph StmtId) (o : Options) (s t : State StmtId Fact) : Prop :=
  ∃ n v e, s.worklist.head? = some n ∧ followed? m (stmtAt m n) = some (v, e) ∧
    Withdraws e ((problem m g o).factAt s.inputs n) ((problem m g o).factAt t.inputs n)

theorem effect_le_of_visit {n : StmtId} {x : Fact}
    (v : (problem m g o).Visit (fun n => effect m (stmtAt m n)) s t n x)
    (hle : (problem m g o).factAt s.inputs n ≤ x) (hw : ¬ WithdrawsAt m g o s t) :
    effect m (stmtAt m n) ((problem m g o).factAt s.inputs n) ≤ effect m (stmtAt m n) x := by
  apply effect_le hle
  intro w e hfollow hdiv
  have hhead : s.worklist.head? = some n := by rw [v.worklist_eq, List.head?_cons]
  have hx : (problem m g o).factAt t.inputs n = x := by rw [v.inputs_eq, Function.update_self]
  exact hw ⟨n, w, e, hhead, hfollow, hx ▸ hdiv⟩

theorem exists_step (h : (problem m g o).Reachable s) : ∃ t, (problem m g o).step s = .ok t :=
  Problem.exists_step_of_joins (joins m) h.coherent

/-- Constant propagation never fails; all that can go wrong is that it does not come to an end. -/
theorem solved_or_unsettled (hentry : g.entry?.isSome) (limit : Nat) :
    (∃ t, (problem m g o).solve limit = .solved t) ∨
      ∃ t, (problem m g o).solve limit = .unsettled t := by
  obtain ⟨start, hstart⟩ := Option.isSome_iff_exists.mp hentry
  have hbegin : (problem m g o).begin = .ok ((problem m g o).beginAt start) :=
    Problem.begin_of_start hstart
  rw [Problem.solve, hbegin]
  exact (Problem.Reachable.begin hbegin).run_solved_or_unsettled (fun s hs => exists_step hs) limit

/-- If nothing is lowered after some first visits, then what changes afterwards rises. -/
theorem climbs_of_raisesFrom {k : Nat} (hup : (problem m g o).RaisesFrom k) :
    (problem m g o).Climbs (Fact.level m.vars.length) (2 * intCount m) k where
  exists_step _ hs := exists_step hs
  level_le s hs n := (hs.forall_facts (overwrites m) (closed_tracks m g o) n).2.level_le
  level_lt s t hs hk hw ht n hne := by
    have htracks := (hs.step hw ht).forall_facts (overwrites m) (closed_tracks m g o) n
    have hle := (hup s t hs hk hw ht).factAt_le (overwrites m) hs hw ht n
    apply Fact.level_lt
    · intro v hv
      exact lt_of_mem_ints (htracks.2 v hv)
    · exact lt_of_le_of_ne hle hne

/-- If nothing is lowered after the first `k` visits, then the analysis comes to an end after one
visit to each node, one visit over each edge for each of those visits, and two visits over each edge
for each variable that holds an integer. -/
theorem exists_solve_eq_solved_of_raisesFrom (hentry : g.entry?.isSome) {k : Nat}
    (hup : (problem m g o).RaisesFrom k) :
    ∃ t, (problem m g o).solve (g.nodes.length + g.edges.length * (k + 2 * intCount m)) =
        .solved t ∧
      t.visited.size ≤ g.nodes.length + g.edges.length * (k + 2 * intCount m) :=
  (climbs_of_raisesFrom hup).exists_solve_eq_solved (overwrites m) hentry

theorem exists_solve_eq_solved_of_raisesFrom_zero (hentry : g.entry?.isSome)
    (hup : (problem m g o).RaisesFrom 0) :
    ∃ t, (problem m g o).solve (g.nodes.length + 2 * g.edges.length * intCount m) = .solved t ∧
      t.visited.size ≤ g.nodes.length + 2 * g.edges.length * intCount m := by
  have h := exists_solve_eq_solved_of_raisesFrom hentry hup
  rwa [Nat.zero_add, ← Nat.mul_assoc, Nat.mul_comm _ 2] at h

section NotWithdrawn

variable (hw : ∀ s t, (problem m g o).Reachable s → s.worklist ≠ [] →
  (problem m g o).step s = .ok t → ¬ WithdrawsAt m g o s t)

include hw

/-- If no division is withdrawn, then nothing is ever lowered. -/
theorem raises_of_not_withdrawsAt (hs : (problem m g o).Reachable s) (hne : s.worklist ≠ [])
    (ht : (problem m g o).step s = .ok t) : (problem m g o).Raises s t := by
  refine hs.raises (overwrites m) (joins m) ?_ hne ht
  intro s t n x hs hne ht v hle
  exact effect_le_of_visit v hle (hw s t hs hne ht)

theorem raisesFrom_zero_of_not_withdrawsAt : (problem m g o).RaisesFrom 0 :=
  fun _ _ hs _ hne ht => raises_of_not_withdrawsAt hw hs hne ht

end NotWithdrawn

section NotDividing

variable (hdiv : ∀ n v op a b, followed? m (stmtAt m n) = some (v, .binary op a b) →
  op.isDivision = false)

include hdiv

theorem not_withdrawsAt_of_no_division : ¬ WithdrawsAt m g o s t := by
  rintro ⟨n, v, e, -, hfollow, op, a, b, rfl, hop, -⟩
  rw [hdiv n v op a b hfollow] at hop
  cases hop

/-- Without divisions no visit lowers a fact. -/
theorem raisesFrom_zero_of_no_division : (problem m g o).RaisesFrom 0 :=
  raisesFrom_zero_of_not_withdrawsAt fun _ _ _ _ _ => not_withdrawsAt_of_no_division hdiv

end NotDividing

/-- If after the first `k` visits no fact that goes on from a node is lowered, then constant
propagation comes to an end, within a number of visits that is known from `k`.  If it comes to an
end, then there is such a `k`: it is the number of the last visit that lowers a fact, or zero if
there is none, and the run is no longer than that allows.  And if it does not come to an end in the
time in which a method without divisions does, then some visit withdraws a division. -/
theorem solved_iff_finally_raises (m : Method) (g : Graph StmtId) (o : Options)
    (hentry : g.entry?.isSome) :
    (∀ k, (problem m g o).RaisesFrom k → ∃ t, (problem m g o).solve
      (g.nodes.length + g.edges.length * (k + 2 * intCount m)) = .solved t) ∧
    (∀ limit u, (problem m g o).solve limit = .solved u →
      ∃ k ≤ u.visited.size, (problem m g o).RaisesFrom k ∧
        (k = 0 ∨ ∃ s t, (problem m g o).Reachable s ∧ s.visited.size + 1 = k ∧ s.worklist ≠ [] ∧
          (problem m g o).step s = .ok t ∧ ¬ (problem m g o).Raises s t) ∧
        u.visited.size ≤ g.nodes.length + g.edges.length * (k + 2 * intCount m)) ∧
    ((∃ t, (problem m g o).solve (g.nodes.length + 2 * g.edges.length * intCount m) = .solved t) ∨
      ∃ s t, (problem m g o).Reachable s ∧ s.worklist ≠ [] ∧ (problem m g o).step s = .ok t ∧
        WithdrawsAt m g o s t) := by
  refine ⟨fun k hup => ?_, fun limit u hu => ?_, ?_⟩
  · obtain ⟨t, ht, -⟩ := exists_solve_eq_solved_of_raisesFrom hentry hup
    exact ⟨t, ht⟩
  · obtain ⟨k, hk, hup, hlast⟩ := Problem.exists_last_lowering hu
    obtain ⟨t, ht, hsize⟩ := exists_solve_eq_solved_of_raisesFrom hentry hup
    obtain rfl := Problem.eq_of_solve_eq_solved hu ht
    exact ⟨k, hk, hup, hlast, hsize⟩
  · by_contra hnot
    rw [not_or] at hnot
    apply hnot.1
    obtain ⟨t, ht, -⟩ := exists_solve_eq_solved_of_raisesFrom_zero hentry
      (raisesFrom_zero_of_not_withdrawsAt fun s t hs hne ht hw => hnot.2 ⟨s, t, hs, hne, ht, hw⟩)
    exact ⟨t, ht⟩

/-- A division `x = a / b` in front of a loop, where it is found out late that `b` is zero. -/
def pulse : Method where
  name := "pulse"
  vars := [⟨"a", .int⟩, ⟨"b", .int⟩, ⟨"x", .int⟩]
  params := [0]
  body := [{ stmt := .nop }, { stmt := .nop }, { stmt := .nop }, { stmt := .nop }, { stmt := .nop },
    { stmt := .assign (some 2) (.binary (.arith .div) 0 1) }, { stmt := .nop },
    { stmt := .assign (some 1) (.int 0) }]

/-- Two ways lead to the division at node 5, and only on the longer one `b` is assigned; behind it
is a loop of the nodes 1 to 4. -/
def pulseGraph : Graph StmtId :=
  (Graph.build? [.entry 0, .node 1, .node 2, .node 3, .node 4, .node 5, .node 6, .node 7,
    .edge ⟨.fallThrough, 0, 5⟩, .edge ⟨.fallThrough, 5, 1⟩, .edge ⟨.fallThrough, 0, 7⟩,
    .edge ⟨.fallThrough, 1, 2⟩, .edge ⟨.fallThrough, 2, 3⟩, .edge ⟨.fallThrough, 3, 4⟩,
    .edge ⟨.fallThrough, 4, 1⟩, .edge ⟨.fallThrough, 7, 6⟩, .edge ⟨.fallThrough, 6, 5⟩]).getD ∅

theorem pulse_recurs : (problem pulse pulseGraph {}).recurs 22 30 = true := by decide +kernel

theorem solved_iff_finally_raises_pulse :
    pulseGraph.entry?.isSome ∧
      (∀ k, ∃ s t, (problem pulse pulseGraph {}).Reachable s ∧ k ≤ s.visited.size ∧
        s.worklist ≠ [] ∧ (problem pulse pulseGraph {}).step s = .ok t ∧
        ¬ (problem pulse pulseGraph {}).Raises s t) ∧
      ∃ s t, (problem pulse pulseGraph {}).Reachable s ∧ s.worklist ≠ [] ∧
        (problem pulse pulseGraph {}).step s = .ok t ∧ WithdrawsAt pulse pulseGraph {} s t := by
  obtain ⟨hsolved, -, hor⟩ := solved_iff_finally_raises pulse pulseGraph {} rfl
  have hnever : ∀ limit, ¬ ∃ t, (problem pulse pulseGraph {}).solve limit = .solved t := by
    rintro limit ⟨t, ht⟩
    exact Problem.never_solved_of_recurs pulse_recurs (by decide) limit t ht
  refine ⟨rfl, fun k => ?_, hor.resolve_left (hnever _)⟩
  by_contra hnot
  apply hnever _
  apply hsolved k
  intro s t hs hk hne ht
  by_contra hlower
  exact hnot ⟨s, t, hs, hk, hne, ht, hlower⟩

/-- The value of `x` that is withdrawn goes round in the loop for ever. -/
theorem pulse_never_solved :
    pulseGraph.nodes = [0, 1, 2, 3, 4, 5, 6, 7] ∧ pulseGraph.entry? = some 0 ∧
      ∀ limit, ∃ t, (problem pulse pulseGraph {}).solve limit = .unsettled t ∧
        t.worklist ≠ [] := by
  refine ⟨by decide, rfl, fun limit => ?_⟩
  have hentry : pulseGraph.entry?.isSome := rfl
  cases solved_or_unsettled hentry limit with
  | inl hsolved =>
    obtain ⟨t, ht⟩ := hsolved
    exact absurd ht (Problem.never_solved_of_recurs pulse_recurs (by decide) limit t)
  | inr hunsettled =>
    obtain ⟨t, ht⟩ := hunsettled
    exact ⟨t, ht, (Problem.of_solve_eq_unsettled ht).2.1⟩

end FlowAnalysis.Constants
