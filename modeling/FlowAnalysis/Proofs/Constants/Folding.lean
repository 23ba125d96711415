import FlowAnalysis.Proofs.Constants.Failure
import FlowAnalysis.Proofs.Constants.Words
import Mathlib.Data.Int.ModEq
import Mathlib.Tactic.Ring

/-!
# Folding in integer mathematics

An operator on two constants gives the constant of what it gives for two integers, wrapped around to
32 bits where that leaves them.

## Main definitions

- `wrap` — the integer of 32 bits that is congruent to an integer
- `pattern` — the bits of an integer, as a natural number
- `Value.Is` — a value is the constant of an integer

## Main statements

- `evaluate_eq_const` — when an operator is folded
- `wrap_quotient_add_remainder` — quotients and remainders belong together, also where the quotient
  has been wrapped around
- `folds_exactly` — what each operator gives for two constants
-/

namespace FlowAnalysis

/-! ## Wrapping around -/

/-- The integer of 32 bits, from -2³¹ to 2³¹ - 1, that is congruent to an integer modulo 2³². -/
def wrap (z : Int) : Int := z.bmod (2 ^ 32)

/-- The 32 bits of an integer in two's complement, read as a natural number. -/
def pattern (z : Int) : Nat := (z % 2 ^ 32).toNat

theorem wrap_spec (z : Int) :
    -2 ^ 31 ≤ wrap z ∧ wrap z < 2 ^ 31 ∧ wrap z % 2 ^ 32 = z % 2 ^ 32 :=
  ⟨Int.le_bmod (by decide), Int.bmod_lt (by decide), Int.bmod_emod⟩

theorem wrap_eq_self {z : Int} (h : -2 ^ 31 ≤ z) (h' : z < 2 ^ 31) : wrap z = z := by
  apply Int.bmod_eq_of_le <;> omega

theorem wrap_congr {y z : Int} (h : y % 2 ^ 32 = z % 2 ^ 32) : wrap y = wrap z := by
  have hy : (y % (2 ^ 32 : Nat)).bmod (2 ^ 32) = wrap y := Int.emod_bmod y (2 ^ 32)
  have hz : (z % (2 ^ 32 : Nat)).bmod (2 ^ 32) = wrap z := Int.emod_bmod z (2 ^ 32)
  rw [← hy, ← hz]
  exact congrArg (Int.bmod · (2 ^ 32)) h

theorem toInt_ofInt (z : Int) : (Int32.ofInt z).toInt = wrap z := Int32.toInt_ofInt

theorem pattern_toInt (c : Int32) : pattern c.toInt = c.toBitVec.toNat := by
  rw [pattern, toInt_emod, Int.toNat_natCast]

theorem toInt_eq_wrap (c : Int32) : c.toInt = wrap c.toBitVec.toNat :=
  BitVec.toInt_eq_toNat_bmod c.toBitVec

/-- A quotient that has been wrapped around still gives the dividend back. -/
theorem wrap_quotient_add_remainder {a b : Int} (h : -2 ^ 31 ≤ a) (h' : a < 2 ^ 31) :
    wrap (wrap (a.tdiv b) * b + (a - b * a.tdiv b)) = a := by
  have hcongr : (wrap (a.tdiv b) * b + (a - b * a.tdiv b)) % 2 ^ 32 = a % 2 ^ 32 := by
    have hq : wrap (a.tdiv b) ≡ a.tdiv b [ZMOD 2 ^ 32] := (wrap_spec (a.tdiv b)).2.2
    calc wrap (a.tdiv b) * b + (a - b * a.tdiv b)
        ≡ a.tdiv b * b + (a - b * a.tdiv b) [ZMOD 2 ^ 32] := (hq.mul_right b).add_right _
      _ = a := by ring
  rw [wrap_congr hcongr, wrap_eq_self h h']

/-- A remainder is smaller than the divisor and has the sign of the dividend. -/
theorem remainder_spec {a b : Int} (hb : b ≠ 0) :
    (a - b * a.tdiv b).natAbs < b.natAbs ∧
      (a - b * a.tdiv b = 0 ∨ (a - b * a.tdiv b).sign = a.sign) := by
  rw [← Int.tmod_def]
  constructor
  · rw [Int.natAbs_tmod]
    exact Nat.mod_lt _ (Int.natAbs_pos.mpr hb)
  · rw [Int.sign_tmod]
    by_cases hdvd : b ∣ a
    · exact .inl (Int.tmod_eq_zero_of_dvd hdvd)
    · exact .inr (if_neg hdvd)

theorem fdiv_two_pow (a : Int) (k : Nat) : a.fdiv (2 ^ k) = a / 2 ^ k :=
  Int.fdiv_eq_ediv_of_nonneg a (Int.pow_nonneg (by decide))

theorem wrap_fdiv {a : Int} (h : -2 ^ 31 ≤ a) (h' : a < 2 ^ 31) (k : Nat) :
    wrap (a.fdiv (2 ^ k)) = a.fdiv (2 ^ k) := by
  have hpos : (0 : Int) < 2 ^ k := Int.pow_pos (by decide)
  rw [fdiv_two_pow]
  apply wrap_eq_self
  · apply (Int.le_ediv_iff_mul_le hpos).mpr
    calc -2 ^ 31 * 2 ^ k ≤ -2 ^ 31 * 1 := Int.mul_le_mul_of_nonpos_left (by decide) hpos
      _ ≤ a := h
  · apply (Int.ediv_lt_iff_lt_mul hpos).mpr
    calc a < 2 ^ 31 * 1 := h'
      _ ≤ 2 ^ 31 * 2 ^ k := Int.mul_le_mul_of_nonneg_left hpos (by decide)

/-! ## Operators on words -/

theorem ArithOp.toInt_eval (op : ArithOp) (a b : Int32) :
    (op.eval a b).toInt = wrap (op.exact a.toInt b.toInt) := by
  rw [op.eval_eq, toInt_ofInt]

theorem ShiftOp.toInt_eval (op : ShiftOp) (a b : Int32) :
    (op.eval a b).toInt = wrap (op.exact a.toInt (b.toInt % 32).toNat) := by
  rw [op.eval_eq, toInt_ofInt]

/-- The bitwise operators on natural numbers. -/
def BitOp.onNat : BitOp → Nat → Nat → Nat
  | or, u, v => u ||| v
  | and, u, v => u &&& v
  | xor, u, v => u ^^^ v

theorem BitOp.toInt_eval (op : BitOp) (a b : Int32) :
    (op.eval a b).toInt = wrap (op.onNat (pattern a.toInt) (pattern b.toInt)) := by
  rw [toInt_eq_wrap, pattern_toInt, pattern_toInt]
  cases op with
  | or => rw [eval, Int32.toBitVec_or, BitVec.toNat_or, onNat]
  | and => rw [eval, Int32.toBitVec_and, BitVec.toNat_and, onNat]
  | xor => rw [eval, Int32.toBitVec_xor, BitVec.toNat_xor, onNat]

namespace Constants

variable {f : Fact} {p q : VarId} {a b : Int}

/-- A value is the constant that stands for an integer. -/
def Value.Is (x : Value) (z : Int) : Prop := ∃ c : Int32, x = .const c ∧ c.toInt = z

theorem Value.Is.mem_range {x : Value} {z : Int} (h : x.Is z) : -2 ^ 31 ≤ z ∧ z < 2 ^ 31 := by
  obtain ⟨c, -, rfl⟩ := h
  exact ⟨c.le_toInt, c.toInt_lt⟩

/-! ## Evaluation of constants -/

/-- An operator that folds two words gives a constant, unless it divides by zero. -/
theorem evaluate_eq_const {op : BinaryOp} {c d r : Int32} (hp : f.get p = .const c)
    (hq : f.get q = .const d) (hd : op.isDivision = false ∨ d ≠ 0) (hr : op.fold? c d = some r) :
    evaluate (.binary op p q) f = .const r := by
  have hz : ¬ dividesByZero op (.const d) = true := by
    rintro h
    obtain ⟨hop, hzero⟩ : op.isDivision = true ∧ d = 0 := by simpa [dividesByZero] using h
    rw [hop] at hd
    exact hd.elim Bool.noConfusion fun hne => hne hzero
  rw [evaluate, hp, hq, evaluateBinary_eq, if_neg hz, combine, hr]
  rfl

theorem evaluate_division_by_zero {op : BinaryOp} (hq : (f.get q).Is 0)
    (h : op.isDivision = true) : evaluate (.binary op p q) f = .undef := by
  obtain ⟨d, hq, hd⟩ := hq
  obtain rfl : d = 0 := Int32.toInt_inj.mp hd
  have hz : dividesByZero op (.const 0) = true := by simp [dividesByZero, h]
  rw [evaluate, hq, evaluateBinary_eq, if_pos hz]

theorem evaluate_neg (ha : (f.get p).Is a) : (evaluate (.neg p) f).Is (wrap (-a)) := by
  obtain ⟨c, hp, rfl⟩ := ha
  refine ⟨-c, ?_, Int32.toInt_neg c⟩
  rw [evaluate, hp, negate]

section Operators

variable (ha : (f.get p).Is a) (hb : (f.get q).Is b)

include ha hb

theorem evaluate_arith (op : ArithOp) (h : (BinaryOp.arith op).isDivision = false ∨ b ≠ 0) :
    (evaluate (.binary (.arith op) p q) f).Is (wrap (op.exact a b)) := by
  obtain ⟨c, hp, rfl⟩ := ha
  obtain ⟨d, hq, rfl⟩ := hb
  have hd : (BinaryOp.arith op).isDivision = false ∨ d ≠ 0 := by
    refine h.imp_right ?_
    rintro hne rfl
    exact hne rfl
  exact ⟨op.eval c d, evaluate_eq_const hp hq hd rfl, op.toInt_eval c d⟩

/-- A remainder is never out of range. -/
theorem evaluate_rem (hne : b ≠ 0) :
    (evaluate (.binary (.arith .rem) p q) f).Is (a - b * a.tdiv b) := by
  obtain ⟨c, hp, rfl⟩ := ha
  obtain ⟨d, hq, rfl⟩ := hb
  have hd : d ≠ 0 := by
    rintro rfl
    exact hne rfl
  refine ⟨c % d, evaluate_eq_const hp hq (.inr hd) rfl, ?_⟩
  rw [Int32.toInt_mod, Int.tmod_def]

theorem evaluate_shift (op : ShiftOp) :
    (evaluate (.binary (.shift op) p q) f).Is (wrap (op.exact a (b % 32).toNat)) := by
  obtain ⟨c, hp, rfl⟩ := ha
  obtain ⟨d, hq, rfl⟩ := hb
  exact ⟨op.eval c d, evaluate_eq_const hp hq (.inl rfl) rfl, op.toInt_eval c d⟩

theorem evaluate_bit (op : BitOp) :
    (evaluate (.binary (.bit op) p q) f).Is (wrap (op.onNat (pattern a) (pattern b))) := by
  obtain ⟨c, hp, rfl⟩ := ha
  obtain ⟨d, hq, rfl⟩ := hb
  exact ⟨op.eval c d, evaluate_eq_const hp hq (.inl rfl) rfl, op.toInt_eval c d⟩

theorem evaluate_cond (op : CondOp) :
    (evaluate (.binary (.cond op) p q) f).Is (if op.exact a b then 1 else 0) := by
  obtain ⟨c, hp, rfl⟩ := ha
  obtain ⟨d, hq, rfl⟩ := hb
  refine ⟨_, evaluate_eq_const hp hq (.inl rfl) rfl, ?_⟩
  rw [op.holds_eq]
  split <;> rfl

end Operators

/-- What each operator gives for two constants.  The exact sum, difference and product are wrapped
around, and so is the quotient, which is rounded towards zero; quotient and remainder give the
dividend back.  Shifts are by a distance modulo 32, to the left by a product and to the right by a
quotient that is rounded down; the one that fills with zeros takes the integer without its sign.  The
bitwise operators work on the patterns, and the conditions give one or zero by the order of the
integers.  Whatever is evaluated, an integer of 32 bits results if a constant does, and nothing goes
wrong. -/
theorem folds_exactly (ha : (f.get p).Is a) (hb : (f.get q).Is b) :
    (∀ z, -2 ^ 31 ≤ wrap z ∧ wrap z < 2 ^ 31 ∧ wrap z % 2 ^ 32 = z % 2 ^ 32) ∧
    (evaluate (.binary (.arith .add) p q) f).Is (wrap (a + b)) ∧
    (evaluate (.binary (.arith .sub) p q) f).Is (wrap (a - b)) ∧
    (evaluate (.binary (.arith .mul) p q) f).Is (wrap (a * b)) ∧
    (b ≠ 0 → (evaluate (.binary (.arith .div) p q) f).Is (wrap (a.tdiv b)) ∧
      ∃ r, r = a - b * a.tdiv b ∧ (evaluate (.binary (.arith .rem) p q) f).Is r ∧
        r.natAbs < b.natAbs ∧ (r = 0 ∨ r.sign = a.sign) ∧ wrap (wrap (a.tdiv b) * b + r) = a) ∧
    (b = 0 → evaluate (.binary (.arith .div) p q) f = .undef ∧
      evaluate (.binary (.arith .rem) p q) f = .undef) ∧
    (∃ k : Nat, k < 32 ∧ (k : Int) = b % 32 ∧
      (evaluate (.binary (.shift .left) p q) f).Is (wrap (a * 2 ^ k)) ∧
      (evaluate (.binary (.shift .right) p q) f).Is (a.fdiv (2 ^ k)) ∧
      (evaluate (.binary (.shift .rightZero) p q) f).Is (wrap ((a % 2 ^ 32).fdiv (2 ^ k)))) ∧
    ((evaluate (.binary (.bit .or) p q) f).Is (wrap ↑(pattern a ||| pattern b)) ∧
      (evaluate (.binary (.bit .and) p q) f).Is (wrap ↑(pattern a &&& pattern b)) ∧
      (evaluate (.binary (.bit .xor) p q) f).Is (wrap ↑(pattern a ^^^ pattern b))) ∧
    ((evaluate (.binary (.cond .eq) p q) f).Is (if a = b then 1 else 0) ∧
      (evaluate (.binary (.cond .ne) p q) f).Is (if a ≠ b then 1 else 0) ∧
      (evaluate (.binary (.cond .lt) p q) f).Is (if a < b then 1 else 0) ∧
      (evaluate (.binary (.cond .gt) p q) f).Is (if a > b then 1 else 0) ∧
      (evaluate (.binary (.cond .le) p q) f).Is (if a ≤ b then 1 else 0) ∧
      (evaluate (.binary (.cond .ge) p q) f).Is (if a ≥ b then 1 else 0)) ∧
    (evaluate (.neg p) f).Is (wrap (-a)) ∧
    (∀ type, (evaluate (.cast type p) f).Is a) ∧
    ∀ e, Checked.evaluate e f = .ok (evaluate e f) ∧
      ∀ z, (evaluate e f).Is z → -2 ^ 31 ≤ z ∧ z < 2 ^ 31 := by
  have hrange := ha.mem_range
  refine ⟨wrap_spec, evaluate_arith ha hb .add (.inl rfl), evaluate_arith ha hb .sub (.inl rfl),
    evaluate_arith ha hb .mul (.inl rfl), fun hne => ?_, fun hzero => ?_, ?_, ?_, ?_,
    evaluate_neg ha, fun _ => ha, fun e => ⟨Checked.evaluate_eq e f, fun _ => Value.Is.mem_range⟩⟩
  · refine ⟨evaluate_arith ha hb .div (.inr hne), _, rfl, ?_, (remainder_spec hne).1,
      (remainder_spec hne).2, wrap_quotient_add_remainder hrange.1 hrange.2⟩
    exact evaluate_rem ha hb hne
  · subst hzero
    exact ⟨evaluate_division_by_zero hb rfl, evaluate_division_by_zero hb rfl⟩
  · have hk : ((b % 32).toNat : Int) = b % 32 := Int.toNat_of_nonneg (Int.emod_nonneg b (by decide))
    refine ⟨(b % 32).toNat, by omega, hk, evaluate_shift ha hb .left, ?_, ?_⟩
    · rw [← wrap_fdiv hrange.1 hrange.2, fdiv_two_pow]
      exact evaluate_shift ha hb .right
    · rw [fdiv_two_pow]
      exact evaluate_shift ha hb .rightZero
  · exact ⟨evaluate_bit ha hb .or, evaluate_bit ha hb .and, evaluate_bit ha hb .xor⟩
  · refine ⟨?_, ?_, ?_, ?_, ?_, ?_⟩
    · simpa [CondOp.exact] using evaluate_cond ha hb .eq
    · simpa [CondOp.exact] using evaluate_cond ha hb .ne
    · simpa [CondOp.exact] using evaluate_cond ha hb .lt
    · simpa [CondOp.exact] using evaluate_cond ha hb .gt
    · simpa [CondOp.exact] using evaluate_cond ha hb .le
    · simpa [CondOp.exact] using evaluate_cond ha hb .ge

/-- The least integer and minus one. -/
def extremes : Fact := .setAll ∅ [(0, .const (-2147483648)), (1, .const (-1))]

theorem folds_exactly_extremes :
    (extremes.get 0).Is (-2 ^ 31) ∧ (extremes.get 1).Is (-1) ∧
      (evaluate (.binary (.arith .div) 0 1) extremes).Is (-2 ^ 31) ∧
      (evaluate (.binary (.arith .rem) 0 1) extremes).Is 0 ∧
      (evaluate (.binary (.shift .rightZero) 0 1) extremes).Is 1 ∧
      (evaluate (.binary (.bit .xor) 0 1) extremes).Is (2 ^ 31 - 1) ∧
      (evaluate (.neg 0) extremes).Is (-2 ^ 31) := by
  have hleast : (extremes.get 0).Is (-2 ^ 31) := ⟨-2147483648, rfl, rfl⟩
  have hone : (extremes.get 1).Is (-1) := ⟨-1, rfl, rfl⟩
  obtain ⟨-, -, -, -, hquotient, -, ⟨k, -, hk, -, -, hshift⟩, ⟨-, -, hxor⟩, -, hneg, -⟩ :=
    folds_exactly hleast hone
  obtain ⟨hdiv, r, rfl, hrem, -⟩ := hquotient (by decide)
  obtain rfl : k = 31 := by omega
  exact ⟨hleast, hone, hdiv, hrem, hshift, hxor, hneg⟩

end Constants

end FlowAnalysis
