import FlowAnalysis.Proofs.Constants.Order
import FlowAnalysis.Proofs.Solver.LeastSolution

/-!
# The parts of constant propagation

Constant propagation overwrites facts and merges them by the join, along all edges alike.  Its nodes
are not monotone, but almost: evaluation gives less for more only when a division takes its result
back, because the divisor turns out to be zero.

## Main definitions

- `stmtAt` — the statement at a node
- `combine` — an operator on two values, apart from division by zero
- `Withdraws` — a division takes its result back

## Main statements

- `overwrites`, `joins` — constant propagation as an analysis
- `evaluate_le` — evaluation is monotone unless a division is withdrawn
- `tracks_boundary`, `tracks_effect` — which variables facts come to be about
- `closed_tracks` — facts are about variables that hold integers
-/

namespace FlowAnalysis.Constants

variable {m m' : Method} {f g : Fact}

/-- The statement at a node; a node without a statement does nothing. -/
def stmtAt (m : Method) (n : StmtId) : Stmt VarId := (m.stmt? n).getD .nop

theorem overwrites (m : Method) : (analysis m).Overwrites fun n => effect m (stmtAt m n) := by
  intro n fact recorded
  exact ⟨rfl, decide_eq_true_iff⟩

theorem joins (m : Method) : (analysis m).Joins fun _ fact => fact where
  initial_le := Fact.empty_le
  merge_eq _ _ := rfl
  edgeTransfer_eq _ h := by cases h
  edgeTransfer_mono _ h := by cases h

/-! ## The boundary -/

theorem mem_suppliedVars {v : VarId} :
    v ∈ suppliedVars m ↔ (m.receiver? = some v ∨ v ∈ m.params) ∧ m.holdsInt v = true := by
  simp [suppliedVars, Option.mem_toList, or_and_right]

private theorem get_foldl_nac (vs : List VarId) (f : Fact) (v : VarId) :
    (vs.foldl (fun f v => f.set v .nac) f).get v = if v ∈ vs then .nac else f.get v := by
  induction vs generalizing f with
  | nil => simp
  | cons w vs ih =>
    rw [List.foldl_cons, ih, Fact.get_set]
    by_cases hv : v ∈ vs
    · simp [hv]
    · by_cases hw : w = v
      · simp [hw]
      · have hw' : ¬ v = w := fun h => hw h.symm
        simp [hv, hw, hw']

/-- At the entry a variable may hold anything if it comes with a value, and else nothing. -/
theorem get_boundary (m : Method) (v : VarId) :
    (boundary m).get v = if v ∈ suppliedVars m then .nac else .undef :=
  get_foldl_nac (suppliedVars m) ∅ v

/-! ## Statements -/

/-- The definition of a followed variable writes a variable that holds an integer. -/
theorem followed?_eq_some {s : Stmt VarId} {v : VarId} {e : Expr VarId} :
    followed? m s = some (v, e) ↔
      s.definition? = some ⟨some (.var v), e⟩ ∧ m.holdsInt v = true := by
  unfold followed?
  constructor
  · intro h
    split at h
    · next hd =>
      split at h
      · next hv =>
        cases h
        exact ⟨hd, hv⟩
      · cases h
    · cases h
  · rintro ⟨hd, hv⟩
    simp only [hd, hv, if_true]

theorem effect_of_followed {s : Stmt VarId} {v : VarId} {e : Expr VarId}
    (h : followed? m s = some (v, e)) (f : Fact) : effect m s f = f.set v (evaluate e f) := by
  simp only [effect, h]

theorem effect_of_not_followed {s : Stmt VarId} (h : followed? m s = none) (f : Fact) :
    effect m s f = f := by
  simp only [effect, h]

/-- The variables that hold integers. -/
def ints (m : Method) : Set VarId := {v | m.holdsInt v = true}

theorem lt_of_mem_ints {v : VarId} (h : v ∈ ints m) : v < m.vars.length := by
  have hv : m.holdsInt v = true := h
  by_contra hlt
  simp [Method.holdsInt, List.getElem?_eq_none (Nat.le_of_not_lt hlt)] at hv

/-- Nothing is known of variables that do not hold integers. -/
theorem get_eq_undef_of_not_holdsInt (hf : f.Tracks (ints m)) {v : VarId}
    (hv : m.holdsInt v = false) : f.get v = .undef := by
  by_contra hne
  have h : m.holdsInt v = true := hf v hne
  rw [hv] at h
  cases h

theorem tracks_boundary {S : Set VarId} (h : ∀ v ∈ suppliedVars m, v ∈ S) :
    (boundary m).Tracks S := by
  intro v hv
  rw [get_boundary] at hv
  split at hv
  · next hmem => exact h v hmem
  · exact absurd rfl hv

theorem tracks_effect {S : Set VarId} {s : Stmt VarId}
    (h : ∀ v e, followed? m s = some (v, e) → v ∈ S) (hf : f.Tracks S) :
    (effect m s f).Tracks S := by
  cases hs : followed? m s with
  | none => rwa [effect_of_not_followed hs]
  | some d =>
    rw [effect_of_followed hs]
    exact hf.set (h d.1 d.2 hs) _

theorem closed_tracks (m : Method) (g : Graph StmtId) (o : Options) :
    (problem m g o).Closed (fun n => effect m (stmtAt m n)) (·.Tracks (ints m)) where
  boundary := tracks_boundary fun _ hv => (mem_suppliedVars.mp hv).2
  initial := Fact.tracks_empty _
  merge _ _ hx hy := hx.merge hy
  edge _ _ _ _ h := by cases h
  node _ _ hx := tracks_effect (fun _ _ hs => (followed?_eq_some.mp hs).2) hx

/-- A solution has a fact on both sides of every node of the graph, and what the node makes of the
one is the other. -/
theorem get?_of_solve_eq_solved {g : Graph StmtId} {o : Options} {limit : Nat}
    {t : State StmtId Fact} (ht : (problem m g o).solve limit = .solved t) {n : StmtId}
    (hn : n ∈ g.nodes) :
    ((problem m g o).solution t).before.get? n = some ((problem m g o).factAt t.inputs n) ∧
      ((problem m g o).solution t).after.get? n = some ((problem m g o).factAt t.outputs n) ∧
      (problem m g o).factAt t.outputs n =
        effect m (stmtAt m n) ((problem m g o).factAt t.inputs n) := by
  obtain ⟨hbefore, hafter⟩ := Problem.keys_of_solve_eq_solved ht
  have hout := (Problem.solves_of_solve_eq_solved (overwrites m) ht n hn).2
  refine ⟨Table.get?_eq_some_getD ?_ ∅, Table.get?_eq_some_getD ?_ ∅, hout⟩
  · rwa [hbefore]
  · rwa [hafter]

/-! ## What arrives -/

section Inflow

variable {g g' : Graph StmtId} {o o' : Options} {out out' : StmtId → Fact} {n : StmtId} {x x' : Fact}
  {v : VarId}

private theorem get_le_iff_of_merged {es : List (Edge StmtId)} {target : Fact} (v : VarId) (z : Value)
    (hx : es.foldlM (fun target e => ((problem m g o).carried out e).map (Fact.merge · target))
      target = some x) :
    x.get v ≤ z ↔ target.get v ≤ z ∧ ∀ e ∈ es, (out e.source).get v ≤ z := by
  induction es generalizing target with
  | nil => simp [Option.some.inj hx]
  | cons e es ih =>
    have hmerge : ((out e.source).merge target).get v ≤ z ↔
        (out e.source).get v ≤ z ∧ target.get v ≤ z := by
      rw [Fact.get_merge]
      exact sup_le_iff
    have hrest : x.get v ≤ z ↔ ((out e.source).merge target).get v ≤ z ∧
        ∀ e ∈ es, (out e.source).get v ≤ z := ih hx
    rw [hrest, hmerge, List.forall_mem_cons, and_assoc, and_left_comm]

/-- Of a variable, what arrives at a node says the least that allows for what goes on from its
predecessors. -/
theorem get_le_iff_of_inflow (hn : g.entry? ≠ some n) (hx : (problem m g o).inflow out n = some x)
    (v : VarId) (z : Value) : x.get v ≤ z ↔ ∀ k ∈ g.predecessors n, (out k).get v ≤ z := by
  have hstart : (problem m g o).start? ≠ some n := hn
  rw [Problem.inflow, if_neg hstart] at hx
  have hedges : x.get v ≤ z ↔ Value.undef ≤ z ∧ ∀ e ∈ g.inEdges n, (out e.source).get v ≤ z :=
    get_le_iff_of_merged v z hx
  rw [hedges, and_iff_right (Value.undef_le z), Graph.predecessors, List.forall_mem_map]

/-- More arrives at a node that has more predecessors, from which more goes on. -/
theorem get_le_get_of_inflow (hn : g.entry? ≠ some n) (hn' : g'.entry? ≠ some n)
    (hx : (problem m g o).inflow out n = some x)
    (hx' : (problem m' g' o').inflow out' n = some x')
    (hpred : ∀ k ∈ g.predecessors n, k ∈ g'.predecessors n ∧ (out k).get v ≤ (out' k).get v) :
    x.get v ≤ x'.get v := by
  rw [get_le_iff_of_inflow hn hx]
  intro k hk
  obtain ⟨hk', hle⟩ := hpred k hk
  exact hle.trans ((get_le_iff_of_inflow hn' hx' v _).mp le_rfl k hk')

end Inflow

/-! ## Evaluation is almost monotone -/

/-- A division that had a result for `f` has none for `g`: what is divided may be anything, and of
the divisor, which was not assigned in `f`, it is known in `g` that it is zero. -/
def Withdraws (e : Expr VarId) (f g : Fact) : Prop :=
  ∃ op a b, e = .binary op a b ∧ op.isDivision = true ∧
    f.get a = .nac ∧ f.get b = .undef ∧ g.get b = .const 0

/-- An operator on two values, apart from division by zero. -/
def combine (op : BinaryOp) : Value → Value → Value
  | .nac, _ => .nac
  | _, .nac => .nac
  | .undef, _ => .undef
  | _, .undef => .undef
  | .const a, .const b => (op.fold? a b).elim .nac .const

theorem evaluateBinary_eq (op : BinaryOp) (x y : Value) :
    evaluateBinary op x y = if dividesByZero op y = true then .undef else combine op x y := rfl

theorem combine_le {op : BinaryOp} {x x' y y' : Value} (hx : x ≤ x') (hy : y ≤ y') :
    combine op x y ≤ combine op x' y' := by
  have hnac : ∀ z : Value, combine op z .nac = .nac := fun z => by cases z <;> rfl
  obtain rfl | rfl | rfl := Value.le_iff.mp hx
  · obtain rfl | rfl | rfl := Value.le_iff.mp hy
    · exact Value.undef_le _
    · rw [hnac x']
      exact Value.le_nac _
    · cases y with
      | undef => exact Value.undef_le _
      | const c => exact Value.undef_le _
      | nac => rw [hnac x']; exact Value.le_nac _
  · exact Value.le_nac _
  · obtain rfl | rfl | rfl := Value.le_iff.mp hy
    · cases x with
      | undef => exact Value.undef_le _
      | const c => exact Value.undef_le _
      | nac => exact le_rfl
    · rw [hnac x]
      exact Value.le_nac _
    · exact le_rfl

theorem evaluateBinary_le {op : BinaryOp} {x x' y y' : Value} (hx : x ≤ x') (hy : y ≤ y')
    (hw : ¬ (op.isDivision = true ∧ x = .nac ∧ y = .undef ∧ y' = .const 0)) :
    evaluateBinary op x y ≤ evaluateBinary op x' y' := by
  rw [evaluateBinary_eq, evaluateBinary_eq]
  by_cases hz : dividesByZero op y = true
  · rw [if_pos hz]
    exact Value.undef_le _
  · by_cases hz' : dividesByZero op y' = true
    · -- The divisor has become zero; before, it can only have been unassigned.
      obtain ⟨hop, hy'⟩ : op.isDivision = true ∧ y' = .const 0 := by
        simpa [dividesByZero] using hz'
      have hyu : y = .undef := by
        obtain h | h | h := Value.le_iff.mp hy
        · exact h
        · rw [hy'] at h
          cases h
        · exact absurd (h ▸ hz') hz
      have hxn : x ≠ .nac := fun h => hw ⟨hop, h, hyu, hy'⟩
      have hu : combine op x y = .undef := by
        rw [hyu]
        cases x with
        | undef => rfl
        | const c => rfl
        | nac => exact absurd rfl hxn
      rw [if_neg hz, hu]
      exact Value.undef_le _
    · rw [if_neg hz, if_neg hz']
      exact combine_le hx hy

theorem negate_le {x y : Value} (h : x ≤ y) : negate x ≤ negate y := by
  obtain rfl | rfl | rfl := Value.le_iff.mp h
  · exact Value.undef_le _
  · exact Value.le_nac _
  · exact le_rfl

/-- Evaluation gives no less for more, unless a division is withdrawn. -/
theorem evaluate_le {e : Expr VarId} (h : f ≤ g) (hw : ¬ Withdraws e f g) :
    evaluate e f ≤ evaluate e g := by
  cases e with
  | var v => exact h v
  | int n => exact le_rfl
  | long n => exact le_rfl
  | binary op a b =>
    apply evaluateBinary_le (h a) (h b)
    rintro ⟨hop, ha, hb, hb'⟩
    exact hw ⟨op, a, b, rfl, hop, ha, hb, hb'⟩
  | neg a => exact negate_le (h a)
  | cast t a => exact h a
  | invoke c => exact le_rfl
  | field r => exact le_rfl

theorem effect_le {s : Stmt VarId} (h : f ≤ g)
    (hw : ∀ v e, followed? m s = some (v, e) → ¬ Withdraws e f g) :
    effect m s f ≤ effect m s g := by
  cases hf : followed? m s with
  | none =>
    rw [effect_of_not_followed hf, effect_of_not_followed hf]
    exact h
  | some d =>
    rw [effect_of_followed hf, effect_of_followed hf]
    intro w
    rw [Fact.get_set, Fact.get_set]
    split
    · exact evaluate_le h (hw d.1 d.2 hf)
    · exact h w

end FlowAnalysis.Constants
