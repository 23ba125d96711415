import FlowAnalysis.Program.Ty

/-!
# Expressions

Expressions are flat: every operand is a variable.  They are generic in what stands for a
variable, so that one definition serves an analysis, which works with positions, and the text,
which works with names.

## Main definitions

- `BinaryOp` — the operators with two operands, in their five families
- `Expr` — expressions over variables `V`
- `Expr.map` — renaming of variables
- `Expr.vars` — the variables that an expression mentions
- `Expr.text` — how an expression over names is written

## Design notes

The parts of an expression that a statement may also hold on its own — a condition, a call and a
field of an object — are structures, so that a statement cannot hold any other kind of expression
in their place.
-/

namespace FlowAnalysis

inductive ArithOp where
  | add
  | sub
  | mul
  | div
  | rem
  deriving DecidableEq

/-- The comparisons that a condition tests. -/
inductive CondOp where
  | eq
  | ne
  | lt
  | gt
  | le
  | ge
  deriving DecidableEq

/-- The shifts: to the left, to the right keeping the sign, and to the right filling with
zeros. -/
inductive ShiftOp where
  | left
  | right
  | rightZero
  deriving DecidableEq

inductive BitOp where
  | or
  | and
  | xor
  deriving DecidableEq

/-- The three-way comparisons of wide and of floating-point numbers.  The last two differ in
their answer when an operand is not a number. -/
inductive CmpOp where
  | cmp
  | cmpl
  | cmpg
  deriving DecidableEq

inductive BinaryOp where
  | arith (op : ArithOp)
  | cond (op : CondOp)
  | shift (op : ShiftOp)
  | bit (op : BitOp)
  | cmp (op : CmpOp)
  deriving DecidableEq

def ArithOp.symbol : ArithOp → String
  | add => "+"
  | sub => "-"
  | mul => "*"
  | div => "/"
  | rem => "%"

def CondOp.symbol : CondOp → String
  | eq => "=="
  | ne => "!="
  | lt => "<"
  | gt => ">"
  | le => "<="
  | ge => ">="

def ShiftOp.symbol : ShiftOp → String
  | left => "<<"
  | right => ">>"
  | rightZero => ">>>"

def BitOp.symbol : BitOp → String
  | or => "|"
  | and => "&"
  | xor => "^"

def CmpOp.symbol : CmpOp → String
  | cmp => "cmp"
  | cmpl => "cmpl"
  | cmpg => "cmpg"

/-- How an operator is written. -/
def BinaryOp.symbol : BinaryOp → String
  | arith op => op.symbol
  | cond op => op.symbol
  | shift op => op.symbol
  | bit op => op.symbol
  | cmp op => op.symbol

/-- Whether the operator divides, so that a divisor of zero has no result. -/
def BinaryOp.isDivision : BinaryOp → Bool
  | arith .div | arith .rem => true
  | _ => false

/-- A condition `left op right`. -/
structure Condition (V : Type) where
  op : CondOp
  left : V
  right : V
  deriving DecidableEq

/-- A call `method(args)`. -/
structure Call (V : Type) where
  method : String
  args : List V
  deriving DecidableEq

/-- A field `base.field` of an object, with the type the field is declared with. -/
structure FieldRef (V : Type) where
  base : V
  field : String
  type : Ty
  deriving DecidableEq

inductive Expr (V : Type) where
  | var (v : V)
  | int (value : Int32)
  | long (value : Int64)
  | binary (op : BinaryOp) (left right : V)
  | neg (operand : V)
  | cast (type : Ty) (operand : V)
  | invoke (call : Call V)
  | field (ref : FieldRef V)
  deriving DecidableEq

variable {V W : Type}

def Condition.toExpr (c : Condition V) : Expr V := .binary (.cond c.op) c.left c.right

def Condition.map (f : V → W) (c : Condition V) : Condition W := ⟨c.op, f c.left, f c.right⟩

def Call.map (f : V → W) (c : Call V) : Call W := ⟨c.method, c.args.map f⟩

def FieldRef.map (f : V → W) (r : FieldRef V) : FieldRef W := ⟨f r.base, r.field, r.type⟩

def Expr.map (f : V → W) : Expr V → Expr W
  | var v => var (f v)
  | int n => int n
  | long n => long n
  | binary op a b => binary op (f a) (f b)
  | neg a => neg (f a)
  | cast t a => cast t (f a)
  | invoke c => invoke (c.map f)
  | field r => field (r.map f)

/-- The variables that an expression mentions. -/
def Expr.vars : Expr V → List V
  | var v => [v]
  | int _ | long _ => []
  | binary _ a b => [a, b]
  | neg a | cast _ a => [a]
  | invoke c => c.args
  | field r => [r.base]

/-- The field that an expression is. -/
def Expr.field? : Expr V → Option (FieldRef V)
  | field r => some r
  | _ => none

/-- The call that an expression is. -/
def Expr.call? : Expr V → Option (Call V)
  | invoke c => some c
  | _ => none

/-- The condition that an expression is. -/
def Expr.condition? : Expr V → Option (Condition V)
  | binary (.cond op) a b => some ⟨op, a, b⟩
  | _ => none

/-- How a call is written: the arguments stand in parentheses, with a comma and a blank between
two of them. -/
def Call.text (c : Call String) : String := c.method ++ "(" ++ ", ".intercalate c.args ++ ")"

def FieldRef.text (r : FieldRef String) : String := r.base ++ "." ++ r.field

/-- How an expression over names is written.  A wide literal ends in `L`, and an operator with two
operands has a blank on each side. -/
def Expr.text : Expr String → String
  | var v => v
  | int n => n.toInt.repr
  | long n => n.toInt.repr ++ "L"
  | binary op a b => a ++ " " ++ op.symbol ++ " " ++ b
  | neg a => "-" ++ a
  | cast t a => "(" ++ t.name ++ ") " ++ a
  | invoke c => c.text
  | field r => r.text

@[simp]
theorem Condition.toExpr_map (f : V → W) (c : Condition V) :
    (c.map f).toExpr = c.toExpr.map f := rfl

/-- What a renaming makes of an expression depends on the variables that are mentioned only. -/
theorem Expr.map_congr {f g : V → W} {e : Expr V} (h : ∀ v ∈ e.vars, f v = g v) :
    e.map f = e.map g := by
  cases e <;> simp_all [map, vars, Call.map, FieldRef.map]

@[simp]
theorem Expr.map_map {X : Type} (f : V → W) (g : W → X) (e : Expr V) :
    (e.map f).map g = e.map (g ∘ f) := by
  cases e <;> simp [map, Call.map, FieldRef.map]

end FlowAnalysis
