import FlowAnalysis.Proofs.Constants.Slicing

/-!
# Definitions without a value

What a definition leaves `undef`.  A division by zero does so, and so does an operand of which
nothing is known, unless another operand may hold anything.  Nothing is ever known of a variable
that does not hold an integer, although it has been assigned; so an integer that is compared or cast
from such variables is `undef`, and where paths meet it gives way to what comes over the others.

## Main definitions

- `DividesByZero` — a divisor is known to be zero
- `LacksOperand` — nothing is known of an operand that the value depends on

## Main statements

- `evaluate_eq_undef_iff` — when an expression has no value
- `undef_of_untracked_operands` — what is computed from untracked variables is taken for unassigned
-/

namespace FlowAnalysis.Constants

variable {m : Method} {g : Graph StmtId} {o : Options} {limit : Nat} {t : State StmtId Fact}
  {n k : StmtId} {v : VarId} {e : Expr VarId} {f : Fact}

/-! ## Evaluation -/

/-- The divisor of an expression is known to be zero. -/
def DividesByZero (e : Expr VarId) (f : Fact) : Prop :=
  ∃ op a b, e = .binary op a b ∧ dividesByZero op (f.get b) = true

/-- Nothing is known of some operand of an expression, and none may hold anything. -/
def LacksOperand (e : Expr VarId) (f : Fact) : Prop :=
  (∃ w ∈ operands e, f.get w = .undef) ∧ ∀ w ∈ operands e, f.get w ≠ .nac

theorem combine_eq_undef_iff {op : BinaryOp} {x y : Value} :
    combine op x y = .undef ↔ (x = .undef ∨ y = .undef) ∧ x ≠ .nac ∧ y ≠ .nac := by
  cases x <;> cases y <;> simp [combine]
  case const.const a b => cases op.fold? a b <;> simp

theorem negate_eq_undef_iff {x : Value} : negate x = .undef ↔ x = .undef := by
  cases x <;> simp [negate]

private theorem lacksOperand_singleton {a : VarId} (ha : operands e = [a]) :
    LacksOperand e f ↔ f.get a = .undef := by
  simp only [LacksOperand, ha, List.mem_singleton, exists_eq_left, forall_eq]
  constructor
  · exact And.left
  · intro h
    exact ⟨h, by simp [h]⟩

private theorem not_lacksOperand_nil (he : operands e = []) : ¬ LacksOperand e f := by
  rintro ⟨⟨w, hw, -⟩, -⟩
  rw [he] at hw
  cases hw

/-- An expression has no value exactly if it divides by zero or lacks an operand. -/
theorem evaluate_eq_undef_iff : evaluate e f = .undef ↔ DividesByZero e f ∨ LacksOperand e f := by
  have hdiv : (∀ op a b, e ≠ .binary op a b) → ¬ DividesByZero e f := by
    rintro hne ⟨op, a, b, he, -⟩
    exact hne op a b he
  cases e with
  | binary op a b =>
    have hzero : DividesByZero (.binary op a b) f ↔ dividesByZero op (f.get b) = true := by
      simp [DividesByZero]
    have hlacks : LacksOperand (.binary op a b) f ↔ combine op (f.get a) (f.get b) = .undef := by
      simp [LacksOperand, operands, combine_eq_undef_iff]
    rw [hzero, hlacks, evaluate, evaluateBinary_eq]
    split
    · next hz => simp [hz]
    · next hz => simp [hz]
  | var a => rw [or_iff_right (hdiv (by simp)), lacksOperand_singleton rfl, evaluate]
  | cast type a => rw [or_iff_right (hdiv (by simp)), lacksOperand_singleton rfl, evaluate]
  | neg a =>
    rw [or_iff_right (hdiv (by simp)), lacksOperand_singleton rfl, evaluate, negate_eq_undef_iff]
  | int c => simpa [evaluate] using ⟨hdiv (by simp), not_lacksOperand_nil rfl⟩
  | long c => simpa [evaluate] using ⟨hdiv (by simp), not_lacksOperand_nil rfl⟩
  | invoke call => simpa [evaluate] using ⟨hdiv (by simp), not_lacksOperand_nil rfl⟩
  | field ref => simpa [evaluate] using ⟨hdiv (by simp), not_lacksOperand_nil rfl⟩

/-- The comparison of wide or floating-point numbers may give anything unless it lacks an
operand. -/
theorem evaluate_cmp_eq_nac_iff {op : CmpOp} {a b : VarId} :
    evaluate (.binary (.cmp op) a b) f = .nac ↔ ¬ LacksOperand (.binary (.cmp op) a b) f := by
  have hzero : ¬ dividesByZero (.cmp op) (f.get b) = true := by
    simp [dividesByZero, BinaryOp.isDivision]
  have hlacks : LacksOperand (.binary (.cmp op) a b) f ↔
      combine (.cmp op) (f.get a) (f.get b) = .undef := by
    simp [LacksOperand, operands, combine_eq_undef_iff]
  rw [hlacks, evaluate, evaluateBinary_eq, if_neg hzero]
  cases f.get a <;> cases f.get b <;> simp [combine, BinaryOp.fold?]

/-! ## Solutions -/

/-- Of a variable that one of the predecessors leaves `undef`, what arrives at a node is the least
that allows for the other predecessors. -/
theorem get_le_iff_of_undef {out : StmtId → Fact} {x : Fact} (hk : g.entry? ≠ some k)
    (hx : (problem m g o).inflow out k = some x) (hn : (out n).get v = .undef) (z : Value) :
    x.get v ≤ z ↔ ∀ j ∈ g.predecessors k, j ≠ n → (out j).get v ≤ z := by
  rw [get_le_iff_of_inflow hk hx]
  constructor
  · intro h j hj _
    exact h j hj
  · intro h j hj
    by_cases hjn : j = n
    · rw [hjn, hn]
      exact Value.undef_le z
    · exact h j hj hjn

/-- After a node that defines an integer, the integer is `undef` exactly if the expression divides
by zero or lacks an operand.  A comparison that lacks no operand may give anything, and a cast keeps
what is known of its operand.  But variables that do not hold integers are `undef`, whatever they
hold.  So what is computed from such variables only is `undef` too, and where paths meet, the others
alone say what it is. -/
theorem undef_of_untracked_operands (ht : (problem m g o).solve limit = .solved t)
    (hn : n ∈ g.nodes) (hdef : Defines m n v e) (hv : m.holdsInt v = true) :
    ∃ before after, ((problem m g o).solution t).before.get? n = some before ∧
      ((problem m g o).solution t).after.get? n = some after ∧
      (after.get v = .undef ↔ DividesByZero e before ∨ LacksOperand e before) ∧
      (∀ op a b, e = .binary (.cmp op) a b → (after.get v = .nac ↔ ¬ LacksOperand e before)) ∧
      (∀ type a, e = .cast type a → after.get v = before.get a) ∧
      (∀ w, m.holdsInt w = false → before.get w = .undef) ∧
      (operands e ≠ [] → (∀ w ∈ operands e, m.holdsInt w = false) → after.get v = .undef ∧
        ∀ k ∈ g.nodes, g.entry? ≠ some k →
          ∃ arrived, ((problem m g o).solution t).before.get? k = some arrived ∧
            ∀ z, arrived.get v ≤ z ↔ ∀ j ∈ g.predecessors k, j ≠ n →
              ((problem m g o).outgoing ((problem m g o).solution t) j).get v ≤ z) := by
  have hr := Problem.solves_of_solve_eq_solved (overwrites m) ht
  obtain ⟨hbefore, hafter, hout⟩ := get?_of_solve_eq_solved ht hn
  have hget : ((problem m g o).factAt t.outputs n).get v =
      evaluate e ((problem m g o).factAt t.inputs n) := by
    rw [hout, get_effect_of_defines hdef hv]
  have huntracked : ∀ w, m.holdsInt w = false →
      ((problem m g o).factAt t.inputs n).get w = .undef :=
    fun w => get_eq_undef_of_not_holdsInt (tracks_of_solve_eq_solved ht n).1
  refine ⟨_, _, hbefore, hafter, ?_, ?_, ?_, huntracked, ?_⟩
  · rw [hget]
    exact evaluate_eq_undef_iff
  · rintro op a b rfl
    rw [hget]
    exact evaluate_cmp_eq_nac_iff
  · rintro type a rfl
    rw [hget, evaluate]
  · intro hne hoperands
    have hundef : ((problem m g o).factAt t.outputs n).get v = .undef := by
      obtain ⟨w, hw⟩ := List.exists_mem_of_ne_nil _ hne
      rw [hget, evaluate_eq_undef_iff]
      refine .inr ⟨⟨w, hw, huntracked w (hoperands w hw)⟩, fun u hu => ?_⟩
      rw [huntracked u (hoperands u hu)]
      exact Value.noConfusion
    refine ⟨hundef, fun k hk hentry => ?_⟩
    exact ⟨_, (get?_of_solve_eq_solved ht hk).1, get_le_iff_of_undef hentry (hr k hk).1 hundef⟩

/-- Sets a result to one, and on one of two ways to that of a comparison of wide numbers. -/
def comparing : Method where
  name := "comparing"
  vars := [⟨"a", .long⟩, ⟨"b", .long⟩, ⟨"p", .int⟩, ⟨"q", .int⟩, ⟨"x", .int⟩, ⟨"y", .int⟩]
  params := [0, 1, 2, 3]
  body := [{ stmt := .assign (some 4) (.int 1) }, { stmt := .branch ⟨.gt, 2, 3⟩ (some 3) },
    { stmt := .assign (some 4) (.binary (.cmp .cmp) 0 1) }, { stmt := .assign (some 5) (.var 4) }]

def comparingGraph : Graph StmtId :=
  (Graph.build? [.entry 0, .node 1, .node 2, .node 3, .edge ⟨.fallThrough, 0, 1⟩,
    .edge ⟨.ifFalse, 1, 2⟩, .edge ⟨.ifTrue, 1, 3⟩, .edge ⟨.fallThrough, 2, 3⟩]).getD ∅

theorem undef_of_untracked_operands_comparing :
    ∃ t, (problem comparing comparingGraph {}).solve 9 = .solved t ∧
      ∃ after, ((problem comparing comparingGraph {}).solution t).after.get? 2 = some after ∧
        after.get 4 = .undef ∧
        ∃ arrived, ((problem comparing comparingGraph {}).solution t).before.get? 3 =
            some arrived ∧
          ∀ z, arrived.get 4 ≤ z ↔ ∀ j ∈ comparingGraph.predecessors 3, j ≠ 2 →
            ((problem comparing comparingGraph {}).outgoing
              ((problem comparing comparingGraph {}).solution t) j).get 4 ≤ z := by
  obtain ⟨t, ht⟩ : ∃ t, (problem comparing comparingGraph {}).solve 9 = .solved t := ⟨_, rfl⟩
  have hoperands : ∀ w ∈ operands (.binary (.cmp .cmp) 0 1), comparing.holdsInt w = false := by
    decide
  obtain ⟨_, after, -, hafter, -, -, -, -, h⟩ :=
    undef_of_untracked_operands (n := 2) (v := 4) (e := .binary (.cmp .cmp) 0 1) ht
      (by decide) rfl rfl
  obtain ⟨hundef, hmerge⟩ := h (by decide) hoperands
  exact ⟨t, ht, after, hafter, hundef, hmerge 3 (by decide) (by decide)⟩

/-- What the comparison of two wide parameters gives is not found to be open.  Where the ways meet,
it is taken for the constant of the other way, although a run comes there with the result of a
comparison of equal numbers. -/
theorem comparing_leaves_undef :
    Defines comparing 2 4 (.binary (.cmp .cmp) 0 1) ∧ comparing.holdsInt 4 = true ∧
      comparing.vars.take 2 = [⟨"a", .long⟩, ⟨"b", .long⟩] ∧
      ∃ t, (problem comparing comparingGraph {}).solve 9 = .solved t ∧
      (((problem comparing comparingGraph {}).solution t).after.get? 2).map (·.get 4) =
        some .undef ∧
      (((problem comparing comparingGraph {}).solution t).before.get? 3).map (·.get 4) =
        some (.const 1) ∧
      ∃ σ, Arrives comparing comparingGraph 3 σ ∧ σ 4 = some 0 := by
  refine ⟨rfl, rfl, rfl, _, rfl, rfl, rfl, ?_⟩
  -- All parameters are five, so the run does not jump and compares equal numbers.
  let σ : Store := fun v => if v ∈ comparing.params then some 5 else none
  let τ : Store := Function.update σ 4 (some 1)
  have hinit : Initial comparing σ := by
    intro v _
    simp [σ, show comparing.receiver? = none from rfl]
  have hset : Executes comparing (stmtAt comparing 0) σ τ := .assign rfl rfl (.int 1)
  have hbranch : Executes comparing (stmtAt comparing 1) τ τ := .keep fun _ _ => nofun
  have hcompare : Executes comparing (stmtAt comparing 2) τ (Function.update τ 4 (some 0)) :=
    .assign rfl rfl (.binary rfl rfl (by decide) (.cmp .cmp 5 5 0))
  have h₁ : Arrives comparing comparingGraph 1 τ :=
    .follow (e := ⟨.fallThrough, 0, 1⟩) (.enter rfl hinit) hset (by decide)
  have h₂ : Arrives comparing comparingGraph 2 τ :=
    .follow (e := ⟨.ifFalse, 1, 2⟩) h₁ hbranch (by decide)
  exact ⟨_, .follow (e := ⟨.fallThrough, 2, 3⟩) h₂ hcompare (by decide), rfl⟩

end FlowAnalysis.Constants
