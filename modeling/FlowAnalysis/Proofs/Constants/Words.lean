import FlowAnalysis.Constants.Evaluate
import Mathlib.Algebra.Group.Nat.Defs
import Mathlib.Algebra.Ring.Int.Defs

/-!
# Words in integer mathematics

What the operators compute, said of the integers that words of 32 bits stand for: the exact result,
wrapped around where it has no word.  Evaluation of constants is by operations on words, and agrees.

## Main definitions

- `ArithOp.exact`, `CondOp.exact`, `ShiftOp.exact`, `BitOp.exact` — the operators on integers, and on
  single bits
- `BinaryOp.Computes` — the words that an operator may compute from two words

## Main statements

- `BinaryOp.eq_of_computes` — what is folded is what is computed
-/

namespace FlowAnalysis

def ArithOp.exact : ArithOp → Int → Int → Int
  | add, x, y => x + y
  | sub, x, y => x - y
  | mul, x, y => x * y
  | div, x, y => x.tdiv y
  | rem, x, y => x.tmod y

def CondOp.exact : CondOp → Int → Int → Bool
  | eq, x, y => x = y
  | ne, x, y => x ≠ y
  | lt, x, y => x < y
  | gt, x, y => x > y
  | le, x, y => x ≤ y
  | ge, x, y => x ≥ y

/-- A shift of an integer by a distance.  The division rounds down; a shift that fills with zeros
takes the integer without its sign. -/
def ShiftOp.exact : ShiftOp → Int → Nat → Int
  | left, x, k => x * 2 ^ k
  | right, x, k => x / 2 ^ k
  | rightZero, x, k => x % 2 ^ 32 / 2 ^ k

def BitOp.exact : BitOp → Bool → Bool → Bool
  | or, p, q => p || q
  | and, p, q => p && q
  | xor, p, q => p != q

/-- The words that an operator may compute from two words; division by zero is excluded beforehand.
Results wrap around, distances are taken modulo the width of a word, and the bitwise operators work
on each bit.  The comparisons of wide and of floating-point numbers may give any word. -/
inductive BinaryOp.Computes : BinaryOp → Int32 → Int32 → Int32 → Prop
  | arith (op : ArithOp) (a b : Int32) :
    Computes (.arith op) a b (.ofInt (op.exact a.toInt b.toInt))
  | cond (op : CondOp) (a b : Int32) :
    Computes (.cond op) a b (if op.exact a.toInt b.toInt then 1 else 0)
  | shift (op : ShiftOp) (a b : Int32) :
    Computes (.shift op) a b (.ofInt (op.exact a.toInt (b.toInt % 32).toNat))
  | bit (op : BitOp) (a b c : Int32)
    (h : ∀ i < 32, c.toBitVec.getLsbD i = op.exact (a.toBitVec.getLsbD i) (b.toBitVec.getLsbD i)) :
    Computes (.bit op) a b c
  | cmp (op : CmpOp) (a b c : Int32) : Computes (.cmp op) a b c

theorem ArithOp.eval_eq (op : ArithOp) (a b : Int32) :
    op.eval a b = .ofInt (op.exact a.toInt b.toInt) := by
  cases op <;> rw [← Int32.toInt_inj, Int32.toInt_ofInt]
  · exact Int32.toInt_add a b
  · exact Int32.toInt_sub a b
  · exact Int32.toInt_mul a b
  · exact Int32.toInt_div a b
  · -- A remainder is never out of range.
    have h : ArithOp.rem.exact a.toInt b.toInt = (a % b).toInt := (Int32.toInt_mod a b).symm
    rw [h, ← Int32.toInt_ofInt, Int32.ofInt_toInt]
    rfl

theorem CondOp.holds_eq (op : CondOp) (a b : Int32) :
    op.holds a b = op.exact a.toInt b.toInt := by
  cases op <;> simp only [holds, exact, decide_eq_decide]
  · exact Int32.toInt_inj.symm
  · exact not_congr Int32.toInt_inj.symm
  · exact Int32.lt_iff_toInt_lt
  · exact Int32.lt_iff_toInt_lt
  · exact Int32.le_iff_toInt_le
  · exact Int32.le_iff_toInt_le

/-! ## Shifts -/

private theorem toInt_eq (a : Int32) : a.toInt =
    if 2 * a.toBitVec.toNat < 2 ^ 32 then ↑a.toBitVec.toNat
    else ↑a.toBitVec.toNat - ((2 ^ 32 : Nat) : Int) :=
  BitVec.toInt_eq_toNat_cond a.toBitVec

/-- The lowest five bits are the remainder by the width of a word. -/
theorem ShiftOp.distance_eq (b : Int32) : distance b = (b.toInt % 32).toNat := by
  have hlow : distance b = b.toBitVec.toNat % 32 := by
    rw [distance, BitVec.toNat_and]
    exact Nat.and_two_pow_sub_one_eq_mod b.toBitVec.toNat 5
  have hb := b.toBitVec.isLt
  rw [hlow, toInt_eq]
  split <;> omega

theorem toInt_emod (a : Int32) : a.toInt % 2 ^ 32 = a.toBitVec.toNat := by
  have ha := a.toBitVec.isLt
  rw [toInt_eq]
  split <;> omega

theorem ShiftOp.eval_eq (op : ShiftOp) (a b : Int32) :
    op.eval a b = .ofInt (op.exact a.toInt (b.toInt % 32).toNat) := by
  apply Int32.toBitVec.inj
  rw [Int32.toBitVec_ofInt, ← distance_eq]
  generalize hk : distance b = k
  cases op with
  | left =>
    have hpow : BitVec.ofInt 32 (2 ^ k) = BitVec.twoPow 32 k := by
      apply BitVec.eq_of_toNat_eq
      rw [BitVec.toNat_ofInt, BitVec.toNat_twoPow]
      exact Int.toNat_natCast (2 ^ k % 2 ^ 32)
    rw [eval, exact, hk, Int32.toBitVec_ofBitVec, BitVec.shiftLeft_eq_mul_twoPow,
      BitVec.ofInt_mul, hpow, ← Int32.toInt_toBitVec a, BitVec.ofInt_toInt]
  | right =>
    have hshift : (a.toBitVec.sshiftRight k).toInt = a.toInt / 2 ^ k := by
      rw [BitVec.toInt_sshiftRight, Int.shiftRight_eq_div_pow, Int32.toInt_toBitVec,
        Int.natCast_pow]
      rfl
    rw [eval, exact, hk, Int32.toBitVec_ofBitVec, ← hshift, BitVec.ofInt_toInt]
  | rightZero =>
    apply BitVec.eq_of_toNat_eq
    have hlt : a.toBitVec.toNat / 2 ^ k < 2 ^ 32 :=
      Nat.lt_of_le_of_lt (Nat.div_le_self _ _) a.toBitVec.isLt
    have hdiv : a.toInt % 2 ^ 32 / 2 ^ k = ((a.toBitVec.toNat / 2 ^ k : Nat) : Int) := by
      rw [toInt_emod]
      norm_cast
    rw [eval, exact, hk, Int32.toBitVec_ofBitVec, BitVec.toNat_ushiftRight,
      Nat.shiftRight_eq_div_pow, hdiv, BitVec.ofInt_natCast, BitVec.toNat_ofNat, Nat.mod_eq_of_lt hlt]

theorem BitOp.getLsbD_eval (op : BitOp) (a b : Int32) (i : Nat) :
    (op.eval a b).toBitVec.getLsbD i =
      op.exact (a.toBitVec.getLsbD i) (b.toBitVec.getLsbD i) := by
  cases op <;> simp [eval, exact]

/-- What an operator computes from two words is what it folds them to, if it folds them. -/
theorem BinaryOp.eq_of_computes {op : BinaryOp} {a b c d : Int32} (h : op.Computes a b c)
    (hd : op.fold? a b = some d) : d = c := by
  cases h with
  | arith op => exact (Option.some.inj hd).symm.trans (op.eval_eq a b)
  | cond op =>
    rw [← op.holds_eq]
    exact (Option.some.inj hd).symm
  | shift op => exact (Option.some.inj hd).symm.trans (op.eval_eq a b)
  | bit op =>
    next hbits =>
    obtain rfl : op.eval a b = d := Option.some.inj hd
    apply Int32.toBitVec.inj
    apply BitVec.eq_of_getLsbD_eq
    intro i hi
    rw [op.getLsbD_eval, hbits i hi]
  | cmp op => cases hd

end FlowAnalysis
