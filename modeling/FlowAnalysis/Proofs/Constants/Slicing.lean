import FlowAnalysis.Proofs.Constants.Soundness
import FlowAnalysis.Proofs.Constants.Termination

/-!
# Slices of methods

What constant propagation finds of some variables at some nodes depends only on the part of the
method that can have a say in it: the nodes from which those nodes are reached, and there the
definitions of those variables.  Two methods that have this part in common may differ in all else,
as long as neither of them divides; then each finds the least facts of which its part allows.

## Main definitions

- `DivisionFree` — no variable that holds an integer is defined by a division
- `Defines` — a node defines a variable by an expression
- `SameSlice` — two methods with their graphs have a part in common

## Main statements

- `SameSlice.get_outputs_le` — a run of one method stays below what is found of the other
- `get?_eq_get?_of_predecessors` — how the graph was built does not matter
- `facts_agree_on_slice` — the same is found of the common part
-/

namespace FlowAnalysis.Constants

variable {m m' : Method} {g g' : Graph StmtId} {o o' : Options} {s : State StmtId Fact}
  {A : Set StmtId} {Y : Set VarId} {n : StmtId} {v : VarId} {e : Expr VarId} {x x' : Fact}
  {out out' : StmtId → Fact}

/-! ## Evaluation and operands -/

/-- Evaluation looks at the operands only. -/
theorem evaluate_congr (h : ∀ w ∈ operands e, x.get w = x'.get w) :
    evaluate e x = evaluate e x' := by
  cases e with
  | var v => exact h v (by simp [operands])
  | int n => rfl
  | long n => rfl
  | binary op a b =>
    have ha : x.get a = x'.get a := h a (by simp [operands])
    have hb : x.get b = x'.get b := h b (by simp [operands])
    rw [evaluate, evaluate, ha, hb]
  | neg a =>
    have ha : x.get a = x'.get a := h a (by simp [operands])
    rw [evaluate, evaluate, ha]
  | cast t a => exact h a (by simp [operands])
  | invoke c => rfl
  | field r => rfl

/-- Evaluation gives no less for operands of which no less is known, unless it divides. -/
theorem evaluate_le_of_operands (hdiv : ∀ op a b, e = .binary op a b → op.isDivision = false)
    (h : ∀ w ∈ operands e, x.get w ≤ x'.get w) : evaluate e x ≤ evaluate e x' := by
  have hw : ¬ Withdraws e x (x ⊔ x') := by
    rintro ⟨op, a, b, he, hop, -⟩
    rw [hdiv op a b he] at hop
    cases hop
  -- The facts need not be comparable, but their merge is above the one and has the operands of the
  -- other.
  calc evaluate e x ≤ evaluate e (x ⊔ x') := evaluate_le le_sup_left hw
    _ = evaluate e x' := evaluate_congr fun w hw => by
      rw [show (x ⊔ x').get w = x.get w ⊔ x'.get w from Fact.get_merge x x' w]
      exact sup_eq_right.mpr (h w hw)

/-! ## Definitions -/

/-- A node defines a variable by an expression. -/
def Defines (m : Method) (n : StmtId) (v : VarId) (e : Expr VarId) : Prop :=
  (stmtAt m n).definition? = some ⟨some (.var v), e⟩

/-- No variable that holds an integer is defined by a division. -/
def DivisionFree (m : Method) : Prop :=
  ∀ s ∈ m.body, ∀ v op a b, s.stmt.definition? = some ⟨some (.var v), .binary op a b⟩ →
    m.holdsInt v = true → op.isDivision = false

theorem DivisionFree.of_defines (h : DivisionFree m) {op : BinaryOp} {a b : VarId}
    (hd : Defines m n v (.binary op a b)) (hv : m.holdsInt v = true) : op.isDivision = false := by
  unfold Defines stmtAt Method.stmt? at hd
  cases hs : m.body[n]? with
  | none => simp [hs, Stmt.definition?] at hd
  | some s =>
    simp only [hs, Option.map_some, Option.getD_some] at hd
    exact h s (List.mem_of_getElem? hs) v op a b hd hv

theorem get_effect_of_defines (hd : Defines m n v e) (hv : m.holdsInt v = true) (x : Fact) :
    (effect m (stmtAt m n) x).get v = evaluate e x := by
  rw [effect_of_followed (followed?_eq_some.mpr ⟨hd, hv⟩), Fact.get_set, if_pos rfl]

theorem get_effect_of_not_defines (hd : ∀ e, ¬ Defines m n v e) (x : Fact) :
    (effect m (stmtAt m n) x).get v = x.get v := by
  cases hf : followed? m (stmtAt m n) with
  | none => rw [effect_of_not_followed hf]
  | some d =>
    obtain ⟨w, e⟩ := d
    have hne : w ≠ v := by
      rintro rfl
      exact hd e (followed?_eq_some.mp hf).1
    rw [effect_of_followed hf, Fact.get_set, if_neg hne]

/-! ## Slices -/

/-- Two methods with their graphs have a part in common: the nodes `A`, with all from which they are
reached, and the variables `Y` that hold integers.  There the nodes have the same predecessors,
apart from the entry, and define variables of the part by the same expressions, which read no other
variables that hold integers. -/
structure SameSlice (m m' : Method) (g g' : Graph StmtId) (A : Set StmtId) (Y : Set VarId) :
    Prop where
  /-- The variables of the two methods are of the same types, as far as that matters. -/
  holdsInt_eq : ∀ v, m.holdsInt v = m'.holdsInt v
  holdsInt : ∀ v ∈ Y, m.holdsInt v = true
  mem_nodes : ∀ n ∈ A, n ∈ g.nodes ∧ n ∈ g'.nodes
  entry_iff : ∀ n ∈ A, g.entry? = some n ↔ g'.entry? = some n
  predecessors_mem : ∀ n ∈ A, g.entry? ≠ some n → ∀ k ∈ g.predecessors n, k ∈ A
  predecessors_iff : ∀ n ∈ A, g.entry? ≠ some n →
    ∀ k, k ∈ g.predecessors n ↔ k ∈ g'.predecessors n
  supplied_iff : ∀ v ∈ Y,
    (m.receiver? = some v ∨ v ∈ m.params) ↔ (m'.receiver? = some v ∨ v ∈ m'.params)
  defines_iff : ∀ n ∈ A, ∀ v ∈ Y, ∀ e, Defines m n v e ↔ Defines m' n v e
  operands_mem : ∀ n ∈ A, ∀ v ∈ Y, ∀ e, Defines m n v e →
    ∀ w ∈ operands e, w ∈ Y ∨ m.holdsInt w = false

namespace SameSlice

theorem symm (h : SameSlice m m' g g' A Y) : SameSlice m' m g' g A Y where
  holdsInt_eq v := (h.holdsInt_eq v).symm
  holdsInt v hv := h.holdsInt_eq v ▸ h.holdsInt v hv
  mem_nodes n hn := (h.mem_nodes n hn).symm
  entry_iff n hn := (h.entry_iff n hn).symm
  predecessors_mem n hn hentry k hk := by
    have hentry : g.entry? ≠ some n := mt (h.entry_iff n hn).mp hentry
    exact h.predecessors_mem n hn hentry k ((h.predecessors_iff n hn hentry k).mpr hk)
  predecessors_iff n hn hentry k :=
    (h.predecessors_iff n hn (mt (h.entry_iff n hn).mp hentry) k).symm
  supplied_iff v hv := (h.supplied_iff v hv).symm
  defines_iff n hn v hv e := (h.defines_iff n hn v hv e).symm
  operands_mem n hn v hv e hd w hw := by
    rw [← h.holdsInt_eq]
    exact h.operands_mem n hn v hv e ((h.defines_iff n hn v hv e).mpr hd) w hw

theorem get_inflow_le (h : SameSlice m m' g g' A Y) (hn : n ∈ A)
    (hle : ∀ k ∈ A, ∀ v ∈ Y, (out k).get v ≤ (out' k).get v)
    (hx : (problem m g o).inflow out n = some x) (hx' : (problem m' g' o').inflow out' n = some x') :
    ∀ v ∈ Y, x.get v ≤ x'.get v := by
  intro v hv
  by_cases hentry : g.entry? = some n
  · have hs : (problem m g o).start? = some n := hentry
    have hs' : (problem m' g' o').start? = some n := (h.entry_iff n hn).mp hentry
    rw [Problem.inflow, if_pos hs] at hx
    rw [Problem.inflow, if_pos hs'] at hx'
    have hmem : v ∈ suppliedVars m ↔ v ∈ suppliedVars m' := by
      rw [mem_suppliedVars, mem_suppliedVars, h.supplied_iff v hv, h.holdsInt_eq v]
    obtain rfl : boundary m = x := Option.some.inj hx
    obtain rfl : boundary m' = x' := Option.some.inj hx'
    simp only [get_boundary, hmem, le_refl]
  · have hentry' : g'.entry? ≠ some n := mt (h.entry_iff n hn).mpr hentry
    refine get_le_get_of_inflow hentry hentry' hx hx' fun k hk => ?_
    exact ⟨(h.predecessors_iff n hn hentry k).mp hk,
      hle k (h.predecessors_mem n hn hentry k hk) v hv⟩

theorem get_effect_le (h : SameSlice m m' g g' A Y) (hdiv : DivisionFree m) (hn : n ∈ A)
    (hx : x.Tracks (ints m)) (hle : ∀ v ∈ Y, x.get v ≤ x'.get v) :
    ∀ v ∈ Y, (effect m (stmtAt m n) x).get v ≤ (effect m' (stmtAt m' n) x').get v := by
  intro v hv
  have hint := h.holdsInt v hv
  by_cases hdef : ∃ e, Defines m n v e
  · obtain ⟨e, hd⟩ := hdef
    rw [get_effect_of_defines hd hint,
      get_effect_of_defines ((h.defines_iff n hn v hv e).mp hd) (h.holdsInt_eq v ▸ hint)]
    apply evaluate_le_of_operands
    · rintro op a b rfl
      exact hdiv.of_defines hd hint
    · intro w hw
      obtain hY | hnot := h.operands_mem n hn v hv e hd w hw
      · exact hle w hY
      · rw [get_eq_undef_of_not_holdsInt hx hnot]
        exact Value.undef_le _
  · have hnot : ∀ e, ¬ Defines m n v e := not_exists.mp hdef
    rw [get_effect_of_not_defines hnot, get_effect_of_not_defines fun e he =>
      hnot e ((h.defines_iff n hn v hv e).mpr he)]
    exact hle v hv

/-- During a run of one method, of the common part never more is known than in a solution for the
other. -/
theorem get_outputs_le (h : SameSlice m m' g g' A Y) (hdiv : DivisionFree m)
    (hs : (problem m g o).Reachable s) {r : Solution StmtId Fact}
    (hr : (problem m' g' o').Solves (fun n => effect m' (stmtAt m' n)) r) :
    ∀ n ∈ A, ∀ v ∈ Y, ((problem m g o).factAt s.outputs n).get v ≤
      ((problem m' g' o').outgoing r n).get v := by
  induction hs with
  | begin hs =>
    obtain ⟨start, -, rfl⟩ := Problem.begin_eq_ok hs
    intro n _ v _
    rw [Problem.factAt_beginAt_outputs]
    exact Value.undef_le _
  | @step s t hs hne ht ih =>
    -- Only one node gets a new fact, and there the other solution has its own equation.
    obtain ⟨k, x, vis⟩ := Problem.visit_of_step (overwrites m) hs.coherent hne ht
    have htracks : ∀ n, ((problem m g o).factAt s.outputs n).Tracks (ints m) :=
      fun n => (hs.forall_facts (overwrites m) (closed_tracks m g o) n).2
    have hx : x.Tracks (ints m) :=
      ((closed_tracks m g o).keeps (overwrites m)).inflow htracks vis.inflow_eq
    intro n hn v hv
    rw [vis.outputs_eq]
    by_cases hnk : n = k
    · subst hnk
      obtain ⟨hin, hout⟩ := hr n (h.mem_nodes n hn).2
      rw [Function.update_self, hout]
      exact h.get_effect_le hdiv hn hx (h.get_inflow_le hn ih vis.inflow_eq hin) v hv
    · rw [Function.update_of_ne hnk]
      exact ih n hn v hv

/-- What is found of the common part for one method is below what is found for the other. -/
theorem get_le (h : SameSlice m m' g g' A Y) (hdiv : DivisionFree m) {limit limit' : Nat}
    {t t' : State StmtId Fact} (ht : (problem m g o).solve limit = .solved t)
    (ht' : (problem m' g' o').solve limit' = .solved t') (hn : n ∈ A) (hv : v ∈ Y) :
    ((problem m g o).factAt t.inputs n).get v ≤ ((problem m' g' o').factAt t'.inputs n).get v ∧
      ((problem m g o).factAt t.outputs n).get v ≤
        ((problem m' g' o').factAt t'.outputs n).get v := by
  have hr := Problem.solves_of_solve_eq_solved (overwrites m) ht
  have hr' := Problem.solves_of_solve_eq_solved (overwrites m') ht'
  obtain ⟨s, hs, -, rfl⟩ := Problem.solve_eq_solved ht
  have hout := h.get_outputs_le hdiv hs hr'
  obtain ⟨hmem, hmem'⟩ := h.mem_nodes n hn
  exact ⟨h.get_inflow_le hn hout (hr n hmem).1 (hr' n hmem').1 v hv, hout n hn v hv⟩

/-- Graphs of one method have everything in common if they have the same nodes, the same entry, and
the same predecessors of every other node. -/
theorem of_predecessors (m : Method) (hentry : g.entry? = g'.entry?)
    (hnodes : ∀ n, n ∈ g.nodes ↔ n ∈ g'.nodes) (hpred : ∀ n, g.entry? ≠ some n →
      ∀ k, k ∈ g.predecessors n ↔ k ∈ g'.predecessors n) :
    SameSlice m m g g' {n | n ∈ g.nodes} (ints m) where
  holdsInt_eq v := rfl
  holdsInt v hv := hv
  mem_nodes n hn := ⟨hn, (hnodes n).mp hn⟩
  entry_iff n _ := by rw [hentry]
  predecessors_mem n _ _ k hk := by
    obtain ⟨e, he, rfl⟩ := List.mem_map.mp hk
    exact g.source_mem e (Graph.mem_inEdges.mp he).1
  predecessors_iff n _ hn := hpred n hn
  supplied_iff v _ := Iff.rfl
  defines_iff n _ v _ e := Iff.rfl
  operands_mem n _ v _ e _ w _ := by
    cases hw : m.holdsInt w with
    | true => exact .inl hw
    | false => exact .inr rfl

end SameSlice

theorem DivisionFree.of_followed (h : DivisionFree m) (n : StmtId) (v : VarId) (op : BinaryOp)
    (a b : VarId) (hf : followed? m (stmtAt m n) = some (v, .binary op a b)) :
    op.isDivision = false := by
  obtain ⟨hd, hv⟩ := followed?_eq_some.mp hf
  exact h.of_defines hd hv

theorem DivisionFree.exists_solve_eq_solved (hdiv : DivisionFree m) (hentry : g.entry?.isSome) :
    ∃ limit t, (problem m g o).solve limit = .solved t := by
  have hup : (problem m g o).RaisesFrom 0 := raisesFrom_zero_of_no_division hdiv.of_followed
  obtain ⟨t, ht, -⟩ := exists_solve_eq_solved_of_raisesFrom_zero hentry hup
  exact ⟨_, t, ht⟩

/-- In a solution only variables that hold integers are known. -/
theorem tracks_of_solve_eq_solved {limit : Nat} {t : State StmtId Fact}
    (ht : (problem m g o).solve limit = .solved t) (n : StmtId) :
    ((problem m g o).factAt t.inputs n).Tracks (ints m) ∧
      ((problem m g o).factAt t.outputs n).Tracks (ints m) := by
  obtain ⟨s, hs, -, rfl⟩ := Problem.solve_eq_solved ht
  exact hs.forall_facts (overwrites m) (closed_tracks m g o) n

/-- What is found of a method without divisions depends neither on the order in which its graph was
built nor on how many edges lead from one node to another. -/
theorem get?_eq_get?_of_predecessors (hdiv : DivisionFree m) (hentry : g.entry? = g'.entry?)
    (hnodes : ∀ n, n ∈ g.nodes ↔ n ∈ g'.nodes) (hpred : ∀ n, g.entry? ≠ some n →
      ∀ k, k ∈ g.predecessors n ↔ k ∈ g'.predecessors n) {limit limit' : Nat}
    {t t' : State StmtId Fact} (ht : (problem m g o).solve limit = .solved t)
    (ht' : (problem m g' o').solve limit' = .solved t') (n : StmtId) :
    t.inputs.get? n = t'.inputs.get? n ∧ t.outputs.get? n = t'.outputs.get? n := by
  have h := SameSlice.of_predecessors m hentry hnodes hpred
  obtain ⟨hinputs, houtputs⟩ := Problem.keys_of_solve_eq_solved ht
  obtain ⟨hinputs', houtputs'⟩ := Problem.keys_of_solve_eq_solved ht'
  have htracks := tracks_of_solve_eq_solved ht
  have htracks' := tracks_of_solve_eq_solved ht'
  constructor
  · refine Table.get?_congr (hinputs ▸ hinputs' ▸ hnodes) ∅ (fun k hk => ?_) n
    refine (htracks k).1.ext (htracks' k).1 fun v hv => ?_
    have hk : k ∈ g.nodes := hinputs ▸ hk
    exact (h.get_le hdiv ht ht' hk hv).1.antisymm (h.symm.get_le hdiv ht' ht hk hv).1
  · refine Table.get?_congr (houtputs ▸ houtputs' ▸ hnodes) ∅ (fun k hk => ?_) n
    refine (htracks k).2.ext (htracks' k).2 fun v hv => ?_
    have hk : k ∈ g.nodes := houtputs ▸ hk
    exact (h.get_le hdiv ht ht' hk hv).2.antisymm (h.symm.get_le hdiv ht' ht hk hv).2

/-- Let two methods without divisions have a part in common.  Then constant propagation comes to an
end for both of them, and finds the same of the variables of the part, before and after each of its
nodes. -/
theorem facts_agree_on_slice (o o' : Options) (hdiv : DivisionFree m) (hdiv' : DivisionFree m')
    (hentry : g.entry?.isSome) (hentry' : g'.entry?.isSome) (h : SameSlice m m' g g' A Y) :
    (∃ limit t, (problem m g o).solve limit = .solved t) ∧
    (∃ limit t, (problem m' g' o').solve limit = .solved t) ∧
    ∀ limit t limit' t', (problem m g o).solve limit = .solved t →
      (problem m' g' o').solve limit' = .solved t' → ∀ n ∈ A, ∃ before after before' after',
        ((problem m g o).solution t).before.get? n = some before ∧
        ((problem m g o).solution t).after.get? n = some after ∧
        ((problem m' g' o').solution t').before.get? n = some before' ∧
        ((problem m' g' o').solution t').after.get? n = some after' ∧
        ∀ v ∈ Y, before.get v = before'.get v ∧ after.get v = after'.get v := by
  refine ⟨hdiv.exists_solve_eq_solved hentry, hdiv'.exists_solve_eq_solved hentry', ?_⟩
  intro limit t limit' t' ht ht' n hn
  obtain ⟨hmem, hmem'⟩ := h.mem_nodes n hn
  obtain ⟨hbefore, hafter⟩ := Problem.keys_of_solve_eq_solved ht
  obtain ⟨hbefore', hafter'⟩ := Problem.keys_of_solve_eq_solved ht'
  refine ⟨_, _, _, _, Table.get?_eq_some_getD (hbefore ▸ hmem) ∅,
    Table.get?_eq_some_getD (hafter ▸ hmem) ∅, Table.get?_eq_some_getD (hbefore' ▸ hmem') ∅,
    Table.get?_eq_some_getD (hafter' ▸ hmem') ∅, fun v hv => ?_⟩
  -- The two methods change places, since neither of them divides.
  obtain ⟨hin, hout⟩ := h.get_le hdiv ht ht' hn hv
  obtain ⟨hin', hout'⟩ := h.symm.get_le hdiv' ht' ht hn hv
  exact ⟨hin.antisymm hin', hout.antisymm hout'⟩

/-- Doubles a variable again and again, and assigns to another one afterwards; what that is assigned
is left open. -/
def growing (last : Expr VarId) : Method where
  name := "growing"
  vars := [⟨"p", .int⟩, ⟨"x", .int⟩, ⟨"y", .int⟩]
  params := [0]
  body := [{ stmt := .assign (some 1) (.int 1) },
    { stmt := .assign (some 1) (.binary (.arith .add) 1 1) }, { stmt := .assign (some 2) last }]

def growingGraph : Graph StmtId :=
  (Graph.build? [.entry 0, .node 1, .node 2, .edge ⟨.fallThrough, 0, 1⟩, .edge ⟨.goto, 1, 1⟩,
    .edge ⟨.fallThrough, 1, 2⟩]).getD ∅

/-- The same loop, built in another order, with a second way into it and another loop behind it. -/
def otherGrowingGraph : Graph StmtId :=
  (Graph.build? [.node 2, .node 1, .entry 0, .edge ⟨.fallThrough, 1, 2⟩, .edge ⟨.goto, 2, 2⟩,
    .edge ⟨.goto, 1, 1⟩, .edge ⟨.goto, 0, 1⟩, .edge ⟨.fallThrough, 0, 1⟩]).getD ∅

theorem sameSlice_growing : SameSlice (growing (.var 1)) (growing (.binary (.arith .add) 0 0))
    growingGraph otherGrowingGraph {0, 1} {1} where
  holdsInt_eq v := rfl
  holdsInt := by rintro v rfl; rfl
  mem_nodes := by rintro n (rfl | rfl) <;> decide
  entry_iff n _ := Iff.rfl
  predecessors_mem := by
    rintro n (rfl | rfl) hn k hk
    · exact absurd rfl hn
    · have hk : k ∈ [0, 1] := hk
      simpa using hk
  predecessors_iff := by
    rintro n (rfl | rfl) hn k
    · exact absurd rfl hn
    · have hpred : growingGraph.predecessors 1 = [0, 1] := rfl
      have hpred' : otherGrowingGraph.predecessors 1 = [1, 0, 0] := rfl
      rw [hpred, hpred']
      simp [or_comm]
  supplied_iff v _ := Iff.rfl
  defines_iff := by
    rintro n (rfl | rfl) v - e <;> exact Iff.rfl
  operands_mem := by
    rintro n (rfl | rfl) v - e hd w hw
    · cases hd
      cases hw
    · cases hd
      left
      simpa [operands] using hw

theorem divisionFree_growing {last : Expr VarId}
    (h : ∀ op a b, last = .binary op a b → op.isDivision = false) : DivisionFree (growing last) := by
  intro s hs v op a b hd _
  have hbody : s.stmt = .assign (some 1) (.int 1) ∨
      s.stmt = .assign (some 1) (.binary (.arith .add) 1 1) ∨ s.stmt = .assign (some 2) last := by
    simp only [growing, List.mem_cons, List.not_mem_nil, or_false] at hs
    rcases hs with rfl | rfl | rfl <;> simp
  obtain hs | hs | hs := hbody <;> rw [hs] at hd
  · cases hd
  · cases hd
    rfl
  · cases hd
    exact h op a b rfl

/-- Both runs come to an end, and both find that `x` is one when the loop is entered and no constant
behind it. -/
theorem facts_agree_on_slice_growing :
    ∃ t t', (problem (growing (.var 1)) growingGraph {}).solve 8 = .solved t ∧
      (problem (growing (.binary (.arith .add) 0 0)) otherGrowingGraph {}).solve 10 = .solved t' ∧
      t.worklist = [] ∧ t'.worklist = [] ∧
      ((problem (growing (.var 1)) growingGraph {}).factAt t.outputs 0).get 1 = .const 1 ∧
      ∃ after after',
        ((problem (growing (.var 1)) growingGraph {}).solution t).after.get? 1 = some after ∧
        ((problem (growing (.binary (.arith .add) 0 0)) otherGrowingGraph {}).solution
          t').after.get? 1 = some after' ∧ after.get 1 = after'.get 1 ∧ after.get 1 = .nac := by
  have hfound : ∃ t, (problem (growing (.var 1)) growingGraph {}).solve 8 = .solved t ∧
      t.worklist = [] ∧
      ((problem (growing (.var 1)) growingGraph {}).factAt t.outputs 0).get 1 = .const 1 ∧
      (((problem (growing (.var 1)) growingGraph {}).solution t).after.get? 1).map (Fact.get · 1) =
        some .nac := ⟨_, rfl, by decide +kernel⟩
  have hfound' : ∃ t, (problem (growing (.binary (.arith .add) 0 0)) otherGrowingGraph {}).solve
      10 = .solved t ∧ t.worklist = [] := ⟨_, rfl, by decide +kernel⟩
  obtain ⟨t, ht, hw, hone, hnac⟩ := hfound
  obtain ⟨t', ht', hw'⟩ := hfound'
  have hdiv : DivisionFree (growing (.var 1)) := divisionFree_growing nofun
  have hdiv' : DivisionFree (growing (.binary (.arith .add) 0 0)) := by
    apply divisionFree_growing
    rintro op a b ⟨⟩
    rfl
  obtain ⟨-, -, hagree⟩ := facts_agree_on_slice {} {} hdiv hdiv' rfl rfl sameSlice_growing
  obtain ⟨_, after, _, after', -, hafter, -, hafter', hsame⟩ := hagree 8 t 10 t' ht ht' 1 (.inr rfl)
  rw [hafter, Option.map_some] at hnac
  exact ⟨t, t', ht, ht', hw, hw', hone, after, after', hafter, hafter', (hsame 1 rfl).2,
    Option.some.inj hnac⟩

end FlowAnalysis.Constants
