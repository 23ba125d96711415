import FlowAnalysis.Proofs.Solver.Runs

/-!
# Runs that never end

A run that is done stays done with a larger limit, and every reachable state is one that some limit
stops at.  What a visit does to the facts that go on from the nodes and to the worklist depends on
these only, so a run that comes back to the same ones goes round for ever.

## Main definitions

- `State.Alike` — the same facts go on from the nodes, and the same nodes wait
- `Problem.recurs` — whether a run stopped at two limits is in like states

## Main statements

- `Problem.Reachable.solve_add` — solving passes through every reachable state
- `Problem.never_solved_of_recurs` — a run that comes back to a like state is never done
-/

namespace FlowAnalysis

variable {N φ : Type} [DecidableEq N]

/-- The same facts go on from the nodes, and the same nodes wait in the same order. -/
structure State.Alike (s t : State N φ) : Prop where
  outputs_eq : s.outputs = t.outputs
  worklist_eq : s.worklist = t.worklist

namespace Problem

variable {p : Problem N φ} {s t s' t' : State N φ} {i j l limit : Nat}

/-! ## Limits -/

theorem run_succ_eq_solved {u : State N φ} (h : p.run l s = .solved u) :
    p.run (l + 1) s = .solved u := by
  refine run_solved_induction h (fun l s hw hu => ?_) fun l s n rest s' hr hs ih => ?_
  · rw [run_of_worklist_eq_nil hw, hu]
  · rw [run_succ_of_step (by simp [hr]) hs, ih]

theorem run_add_eq_solved {u : State N φ} (h : p.run l s = .solved u) (d : Nat) :
    p.run (l + d) s = .solved u := by
  induction d with
  | zero => exact h
  | succ d ih => exact run_succ_eq_solved ih

theorem Coherent.size_visited (h : p.Coherent s) (hw : s.worklist ≠ []) (ht : p.step s = .ok t) :
    t.visited.size = s.visited.size + 1 := by
  obtain ⟨n, rest, x, l, -, -, -, rfl⟩ := h.step_cases hw ht
  rfl

/-- A limit that is larger by as many visits as a reachable state has behind it leaves those that
were allowed from there. -/
theorem Reachable.solve_add (h : p.Reachable s) (l : Nat) :
    p.solve (s.visited.size + l) = p.run l s := by
  induction h generalizing l with
  | begin h =>
    obtain ⟨start, -, rfl⟩ := begin_eq_ok h
    have hsize : (p.beginAt start).visited.size + l = l := Nat.zero_add l
    rw [hsize, solve, h]
  | step hs hw ht ih =>
    rw [hs.coherent.size_visited hw ht, Nat.add_assoc, Nat.add_comm 1 l, ih,
      run_succ_of_step hw ht]

/-- Limits that are enough lead to the same end. -/
theorem eq_of_solve_eq_solved {u v : State N φ} (hu : p.solve i = .solved u)
    (hv : p.solve j = .solved v) : u = v := by
  obtain ⟨start, hs, hu⟩ := run_of_solve_eq_solved hu
  obtain ⟨start', hs', hv⟩ := run_of_solve_eq_solved hv
  rw [Except.ok.inj (hs'.symm.trans hs)] at hv
  have hadd := run_add_eq_solved hv i
  rw [Nat.add_comm j i, run_add_eq_solved hu j] at hadd
  exact Outcome.solved.inj hadd

/-- A problem is solved by every limit that is enough from some reachable state on. -/
theorem Reachable.solve_eq_solved_of_le (h : p.Reachable s) {u : State N φ}
    (hu : p.run l s = .solved u) (hle : s.visited.size + l ≤ limit) :
    p.solve limit = .solved u := by
  obtain ⟨d, rfl⟩ := Nat.exists_eq_add_of_le hle
  rw [Nat.add_assoc, h.solve_add]
  exact run_add_eq_solved hu d

/-- A solved problem is solved by a limit of as many visits as have been made. -/
theorem solve_size_visited {u : State N φ} (h : p.solve limit = .solved u) :
    p.solve u.visited.size = .solved u := by
  obtain ⟨s, hs, hw, rfl⟩ := solve_eq_solved h
  have hsize : (p.settle s).visited.size = s.visited.size + 0 := rfl
  rw [hsize, hs.solve_add, run_of_worklist_eq_nil hw]

/-- A solved problem has no reachable state with work left beyond the limit. -/
theorem Reachable.size_lt (h : p.Reachable s) (hw : s.worklist ≠ []) {u : State N φ}
    (hu : p.solve limit = .solved u) : s.visited.size < limit := by
  by_contra hlt
  have hle : limit ≤ s.visited.size := Nat.le_of_not_lt hlt
  have hzero : p.solve s.visited.size = .unsettled s := by
    have hadd := h.solve_add 0
    rw [Nat.add_zero] at hadd
    rw [hadd, run, if_neg (by simpa using hw)]
  have hsolved : p.solve s.visited.size = .solved u := by
    rw [← Nat.add_sub_of_le hle]
    unfold solve at hu ⊢
    split at hu
    · exact run_add_eq_solved hu _
    · cases hu
  rw [hzero] at hsolved
  cases hsolved

theorem Reachable.of_run_eq_unsettled (hs : p.Reachable s) (h : p.run l s = .unsettled t) :
    p.Reachable t ∧ t.worklist ≠ [] ∧ t.visited.size = s.visited.size + l := by
  induction l generalizing s with
  | zero =>
    by_cases hw : s.worklist = []
    · rw [run_of_worklist_eq_nil hw] at h
      cases h
    · rw [run, if_neg (by simpa using hw)] at h
      cases h
      exact ⟨hs, hw, rfl⟩
  | succ l ih =>
    by_cases hw : s.worklist = []
    · rw [run_of_worklist_eq_nil hw] at h
      cases h
    · cases hs' : p.step s with
      | error err => simp [run, hw, hs'] at h
      | ok s' =>
        rw [run_succ_of_step hw hs'] at h
        obtain ⟨hr, hne, hsize⟩ := ih (hs.step hw hs') h
        refine ⟨hr, hne, ?_⟩
        rw [hsize, hs.coherent.size_visited hw hs']
        omega

theorem of_solve_eq_unsettled (h : p.solve l = .unsettled t) :
    p.Reachable t ∧ t.worklist ≠ [] ∧ t.visited.size = l := by
  unfold solve at h
  split at h
  · next s hs =>
    obtain ⟨hr, hne, hsize⟩ := (Reachable.begin hs).of_run_eq_unsettled h
    obtain ⟨start, -, rfl⟩ := begin_eq_ok hs
    exact ⟨hr, hne, hsize.trans (Nat.zero_add l)⟩
  · cases h

theorem Reachable.run_solved_or_unsettled (hok : ∀ s, p.Reachable s → ∃ t, p.step s = .ok t)
    (hs : p.Reachable s) (l : Nat) :
    (∃ t, p.run l s = .solved t) ∨ ∃ t, p.run l s = .unsettled t := by
  induction l generalizing s with
  | zero =>
    rw [run]
    split
    · exact .inl ⟨_, rfl⟩
    · exact .inr ⟨_, rfl⟩
  | succ l ih =>
    by_cases hw : s.worklist = []
    · exact .inl ⟨_, run_of_worklist_eq_nil hw⟩
    · obtain ⟨t, ht⟩ := hok s hs
      rw [run_succ_of_step hw ht]
      exact ih (hs.step hw ht)

/-- Either a run is done within its first `k` visits, or it is stopped after them. -/
theorem exists_reachable_within (hok : ∀ s, p.Reachable s → ∃ t, p.step s = .ok t)
    (hstart : p.start?.isSome) (k : Nat) :
    ∃ s, p.Reachable s ∧ s.visited.size ≤ k ∧ (s.worklist = [] ∨ s.visited.size = k) := by
  obtain ⟨start, hs⟩ := Option.isSome_iff_exists.mp hstart
  have hbegin : p.begin = .ok (p.beginAt start) := begin_of_start hs
  induction k with
  | zero => exact ⟨_, .begin hbegin, Nat.le_refl 0, .inr rfl⟩
  | succ k ih =>
    obtain ⟨s, hs, hle, hw | hk⟩ := ih
    · exact ⟨s, hs, by omega, .inl hw⟩
    · by_cases hw : s.worklist = []
      · exact ⟨s, hs, by omega, .inl hw⟩
      · obtain ⟨t, ht⟩ := hok s hs
        have hsize := hs.coherent.size_visited hw ht
        exact ⟨t, hs.step hw ht, by omega, .inr (by omega)⟩

/-! ## Like states -/

theorem alike_step (hs : p.Coherent s) (ht : p.Coherent t) (h : s.Alike t) (hw : s.worklist ≠ [])
    (hs' : p.step s = .ok s') (ht' : p.step t = .ok t') : s'.Alike t' := by
  obtain ⟨n, rest, x, l, hn, hx, -, rfl⟩ := hs.step_cases hw hs'
  obtain ⟨n', rest', x', l', hn', hx', -, rfl⟩ := ht.step_cases (h.worklist_eq ▸ hw) ht'
  obtain ⟨rfl, rfl⟩ : n = n' ∧ rest = rest' := by
    have hcons : n :: rest = n' :: rest' := by rw [← hn, h.worklist_eq, hn']
    simpa using hcons
  obtain rfl : x = x' := by
    rw [h.outputs_eq, hx'] at hx
    exact (Option.some.inj hx).symm
  constructor
  · show s.outputs.insert n _ = t.outputs.insert n _
    rw [h.outputs_eq]
  · show rest ++ _ = rest ++ _
    rw [h.outputs_eq]

theorem exists_step_of_alike (hs : p.Coherent s) (ht : p.Coherent t) (h : s.Alike t)
    (hw : s.worklist ≠ []) (ht' : p.step t = .ok t') : ∃ s', p.step s = .ok s' := by
  obtain ⟨n, rest, x, l, hn, hx, -, rfl⟩ := ht.step_cases (h.worklist_eq ▸ hw) ht'
  have hnode : s.worklist = n :: rest := h.worklist_eq.trans hn
  rw [← h.outputs_eq] at hx
  obtain ⟨l', -, hstep⟩ := hs.step_eq_ok hnode hx
  exact ⟨_, hstep⟩

/-- From like states the same number of visits is left. -/
theorem exists_run_eq_solved_of_alike (hs : p.Reachable s) (ht : p.Reachable t) (h : s.Alike t)
    {u : State N φ} (hu : p.run l t = .solved u) : ∃ v, p.run l s = .solved v := by
  induction l generalizing s t with
  | zero =>
    by_cases hw : s.worklist = []
    · exact ⟨_, run_of_worklist_eq_nil hw⟩
    · rw [run, if_neg (by simpa [← h.worklist_eq] using hw)] at hu
      cases hu
  | succ l ih =>
    by_cases hw : s.worklist = []
    · exact ⟨_, run_of_worklist_eq_nil hw⟩
    · have hwt : t.worklist ≠ [] := h.worklist_eq ▸ hw
      cases ht' : p.step t with
      | error err => simp [run, hwt, ht'] at hu
      | ok t' =>
        obtain ⟨s', hs'⟩ := exists_step_of_alike hs.coherent ht.coherent h hw ht'
        rw [run_succ_of_step hwt ht'] at hu
        rw [run_succ_of_step hw hs']
        exact ih (hs.step hw hs') (ht.step hwt ht')
          (alike_step hs.coherent ht.coherent h hw hs' ht') hu

/-- A run that comes back to a like state is never done. -/
theorem never_solved_of_alike (hs : p.Reachable s) (ht : p.Reachable t) (h : s.Alike t)
    (hw : t.worklist ≠ []) (hlt : s.visited.size < t.visited.size) (limit : Nat) (u : State N φ) :
    p.solve limit ≠ .solved u := by
  -- A limit that is enough for the later state would leave as much to the earlier one, so that a
  -- smaller limit would be enough.
  induction limit using Nat.strongRecOn generalizing u with
  | ind limit ih =>
    intro hu
    have hsize := ht.size_lt hw hu
    obtain ⟨l, rfl⟩ := Nat.exists_eq_add_of_lt hsize
    rw [Nat.add_assoc, ht.solve_add] at hu
    obtain ⟨v, hv⟩ := exists_run_eq_solved_of_alike hs ht h hu
    rw [← hs.solve_add] at hv
    exact ih _ (by omega) v hv

/-- Whether a run is stopped in like states by two limits. -/
def recurs [DecidableEq φ] (p : Problem N φ) (i j : Nat) : Bool :=
  match p.solve i, p.solve j with
  | .unsettled s, .unsettled t =>
    s.outputs.entries = t.outputs.entries && s.worklist = t.worklist
  | _, _ => false

theorem never_solved_of_recurs [DecidableEq φ] (h : p.recurs i j = true) (hij : i < j)
    (limit : Nat) (u : State N φ) : p.solve limit ≠ .solved u := by
  unfold recurs at h
  split at h
  · next s t hi hj =>
    obtain ⟨hs, -, hsize⟩ := of_solve_eq_unsettled hi
    obtain ⟨ht, hw, hsize'⟩ := of_solve_eq_unsettled hj
    simp only [Bool.and_eq_true, decide_eq_true_eq] at h
    have halike : s.Alike t := ⟨Table.ext h.1, h.2⟩
    exact never_solved_of_alike hs ht halike hw (by omega) limit u
  · cases h

end Problem

end FlowAnalysis
