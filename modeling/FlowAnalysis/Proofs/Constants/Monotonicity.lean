import FlowAnalysis.Proofs.Constants.Transfer

/-!
# How far evaluation is monotone

Evaluation gives no less for more, but for one exception: a division of what may be anything, whose
divisor was unassigned, has no result any more when the divisor turns out to be zero.  So the only
statements that are not monotone are such divisions whose result is followed.

## Main statements

- `Withdraws.evaluate_eq` — how far the value falls
- `effect_le_iff` — when a statement gives no less for more
- `monotone_but_for_divisions` — the exception, and that it is the only one
-/

namespace FlowAnalysis.Constants

variable {m : Method} {s : Stmt VarId} {e : Expr VarId} {f g : Fact}

theorem isDivision_iff {op : BinaryOp} :
    op.isDivision = true ↔ op = .arith .div ∨ op = .arith .rem := by
  cases op with
  | arith op => cases op <;> simp [BinaryOp.isDivision]
  | _ => simp [BinaryOp.isDivision]

theorem withdraws_iff : Withdraws e f g ↔
    ∃ a b, (e = .binary (.arith .div) a b ∨ e = .binary (.arith .rem) a b) ∧
      f.get a = .nac ∧ f.get b = .undef ∧ g.get b = .const 0 := by
  constructor
  · rintro ⟨op, a, b, rfl, hop, hvalues⟩
    obtain rfl | rfl := isDivision_iff.mp hop
    · exact ⟨a, b, .inl rfl, hvalues⟩
    · exact ⟨a, b, .inr rfl, hvalues⟩
  · rintro ⟨a, b, rfl | rfl, hvalues⟩
    · exact ⟨.arith .div, a, b, rfl, rfl, hvalues⟩
    · exact ⟨.arith .rem, a, b, rfl, rfl, hvalues⟩

theorem Fact.le_set {v : VarId} {x : Value} (h : f.get v ≤ x) : f ≤ f.set v x := by
  intro w
  rw [get_set]
  split
  · next hvw => exact hvw ▸ h
  · exact le_rfl

/-- The value of a division that is withdrawn falls from the top to the bottom. -/
theorem Withdraws.evaluate_eq (h : Withdraws e f g) :
    evaluate e f = .nac ∧ evaluate e g = .undef := by
  obtain ⟨op, a, b, rfl, hop, ha, hb, hb'⟩ := h
  constructor
  · have hz : ¬ dividesByZero op .undef = true := by simp [dividesByZero]
    rw [evaluate, ha, hb, evaluateBinary_eq, if_neg hz]
    rfl
  · have hz : dividesByZero op (.const 0) = true := by simp [dividesByZero, hop]
    rw [evaluate, hb', evaluateBinary_eq, if_pos hz]

theorem evaluate_le_iff (h : f ≤ g) : evaluate e f ≤ evaluate e g ↔ ¬ Withdraws e f g := by
  constructor
  · intro hle hw
    obtain ⟨hf, hg⟩ := hw.evaluate_eq
    rw [hf, hg] at hle
    cases Value.eq_undef_of_le hle
  · exact evaluate_le h

/-- A statement gives no less for more unless it defines a followed variable by a division that is
withdrawn. -/
theorem effect_le_iff (h : f ≤ g) : effect m s f ≤ effect m s g ↔
    ∀ v e, followed? m s = some (v, e) → ¬ Withdraws e f g := by
  constructor
  · intro hle v e hs
    have hv := hle v
    rw [effect_of_followed hs, effect_of_followed hs, Fact.get_set, Fact.get_set, if_pos rfl,
      if_pos rfl] at hv
    exact (evaluate_le_iff h).mp hv
  · exact effect_le h

/-- If no less is known of each variable, then no less is known of the value of an expression, with
one exception: a quotient or a remainder of what may be anything, with a divisor that was unassigned
and is zero now.  Then the value falls from `nac` to `undef`.  So what is recorded after a statement
is no less either, whatever was recorded before, unless the statement defines a variable that holds
an integer by such a division; and a statement that does not define one by any division is monotone
altogether. -/
theorem monotone_but_for_divisions (h : ∀ v, f.get v ≤ g.get v) :
    (∀ e, ¬ evaluate e f ≤ evaluate e g ↔
      ∃ a b, (e = .binary (.arith .div) a b ∨ e = .binary (.arith .rem) a b) ∧
        f.get a = .nac ∧ f.get b = .undef ∧ g.get b = .const 0) ∧
    (∀ e, ¬ evaluate e f ≤ evaluate e g → evaluate e f = .nac ∧ evaluate e g = .undef) ∧
    (∀ m s recorded recorded',
      (transfer m s f recorded).fact ≤ (transfer m s g recorded').fact ↔
        ∀ v e, s.definition? = some ⟨some (.var v), e⟩ → m.holdsInt v = true →
          evaluate e f ≤ evaluate e g) ∧
    ∀ m s recorded recorded', (∀ v a b, m.holdsInt v = true →
        s.definition? ≠ some ⟨some (.var v), .binary (.arith .div) a b⟩ ∧
        s.definition? ≠ some ⟨some (.var v), .binary (.arith .rem) a b⟩) →
      (transfer m s f recorded).fact ≤ (transfer m s g recorded').fact := by
  have hle : f ≤ g := h
  have hdefined : ∀ m s recorded recorded',
      (transfer m s f recorded).fact ≤ (transfer m s g recorded').fact ↔
        ∀ v e, s.definition? = some ⟨some (.var v), e⟩ → m.holdsInt v = true →
          evaluate e f ≤ evaluate e g := by
    intro m s recorded recorded'
    have heffect : (transfer m s f recorded).fact ≤ (transfer m s g recorded').fact ↔
        ∀ v e, followed? m s = some (v, e) → ¬ Withdraws e f g := effect_le_iff hle
    simp only [heffect, followed?_eq_some, and_imp, evaluate_le_iff hle]
  refine ⟨fun e => ?_, fun e he => ?_, hdefined, fun m s recorded recorded' hs => ?_⟩
  · rw [evaluate_le_iff hle, not_not, withdraws_iff]
  · rw [evaluate_le_iff hle, not_not] at he
    exact he.evaluate_eq
  · refine (hdefined m s recorded recorded').mpr fun v e hd hv => ?_
    rw [evaluate_le_iff hle, withdraws_iff]
    rintro ⟨a, b, rfl | rfl, -⟩
    · exact (hs v a b hv).1 hd
    · exact (hs v a b hv).2 hd

/-- Two variables to divide, and two to hold the quotient; the second of these is not followed. -/
def dividing : Method where
  name := "dividing"
  vars := [⟨"a", .int⟩, ⟨"b", .int⟩, ⟨"x", .int⟩, ⟨"w", .long⟩]

/-- The dividend may be anything, and the divisor is unassigned. -/
def dividendOnly : Fact := Fact.set ∅ 0 .nac

/-- The divisor is zero. -/
def zeroDivisor : Fact := dividendOnly.set 1 (.const 0)

theorem monotone_but_for_divisions_dividing :
    (∀ v, dividendOnly.get v ≤ zeroDivisor.get v) ∧
      ¬ evaluate (.binary (.arith .div) 0 1) dividendOnly ≤
        evaluate (.binary (.arith .div) 0 1) zeroDivisor ∧
      ¬ (transfer dividing (.assign (some 2) (.binary (.arith .div) 0 1)) dividendOnly ∅).fact ≤
        (transfer dividing (.assign (some 2) (.binary (.arith .div) 0 1)) zeroDivisor ∅).fact ∧
      (transfer dividing (.assign (some 3) (.binary (.arith .div) 0 1)) dividendOnly ∅).fact ≤
        (transfer dividing (.assign (some 3) (.binary (.arith .div) 0 1)) zeroDivisor ∅).fact := by
  have hle : dividendOnly ≤ zeroDivisor := Fact.le_set (Value.undef_le (.const 0))
  obtain ⟨hexpr, -, hdefined, hstmt⟩ := monotone_but_for_divisions hle
  have hfalls : ¬ evaluate (.binary (.arith .div) 0 1) dividendOnly ≤
      evaluate (.binary (.arith .div) 0 1) zeroDivisor :=
    (hexpr _).mpr ⟨0, 1, .inl rfl, rfl, rfl, rfl⟩
  refine ⟨hle, hfalls, fun htransfer => hfalls ?_, hstmt _ _ ∅ ∅ ?_⟩
  · exact (hdefined _ _ ∅ ∅).mp htransfer 2 _ rfl rfl
  · intro v a b hv
    constructor
    · rintro ⟨⟩
      cases hv
    · nofun

end FlowAnalysis.Constants
