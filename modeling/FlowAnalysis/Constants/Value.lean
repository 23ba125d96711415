/-!
# What is known of the value of a variable

A variable has been given no value yet, is known to hold one 32-bit integer, or may hold any.
Values are ordered by how much they allow: nothing is known to have been assigned in `undef`, and
anything may have been in `nac`.

## Main definitions

- `Value` — what is known of a variable
- `Value.AtMost` — the order, in which all constants lie side by side
- `Value.join` — the least value above two
- `Value.constant` — the constant, for a value that is one
-/

namespace FlowAnalysis.Constants

/-- What is known of the value of a variable: nothing has been assigned (`undef`), it holds one
integer (`const`), or it is not a constant (`nac`). -/
inductive Value where
  | undef
  | const (c : Int32)
  | nac
  deriving DecidableEq

namespace Value

/-- One value allows no more than another. -/
inductive AtMost : Value → Value → Prop
  | undef_le (x : Value) : AtMost undef x
  | le_nac (x : Value) : AtMost x nac
  | refl (x : Value) : AtMost x x

instance : LE Value := ⟨AtMost⟩

/-- The least value that allows what either of two allows.  Two different constants leave the value
open. -/
def join : Value → Value → Value
  | undef, y => y
  | x, undef => x
  | const c, const d => if c = d then const c else nac
  | nac, _ => nac
  | _, nac => nac

def text : Value → String
  | undef => "UNDEF"
  | const c => c.toInt.repr
  | nac => "NAC"

/-- A value was taken for a constant and is none. -/
structure NotConstant where
  value : Value
  deriving DecidableEq

def NotConstant.message (e : NotConstant) : String :=
  "getConstant() on non-constant " ++ e.value.text

/-- The constant that a value is. -/
def constant : Value → Except NotConstant Int32
  | const c => .ok c
  | x => .error ⟨x⟩

def isConstant : Value → Bool
  | const _ => true
  | _ => false

def isUndef : Value → Bool
  | undef => true
  | _ => false

def isNac : Value → Bool
  | nac => true
  | _ => false

@[simp]
theorem undef_join (x : Value) : undef.join x = x := by cases x <;> rfl

@[simp]
theorem join_undef (x : Value) : x.join undef = x := by cases x <;> rfl

@[simp]
theorem nac_join (x : Value) : nac.join x = nac := by cases x <;> rfl

@[simp]
theorem join_nac (x : Value) : x.join nac = nac := by cases x <;> rfl

@[simp]
theorem join_self (x : Value) : x.join x = x := by cases x <;> simp [join]

theorem join_eq_undef_iff {x y : Value} : x.join y = undef ↔ x = undef ∧ y = undef := by
  cases x <;> cases y <;> grind [join]

end Value

end FlowAnalysis.Constants
