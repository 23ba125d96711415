import FlowAnalysis.Bytes
import FlowAnalysis.Constants.Bindings

/-!
# Printing of bindings

A fact is printed from its bindings, in whatever order an iteration comes to them.  They are sorted
by the names of their variables, byte by byte, and variables of one name by the numbers that they
got when they were declared.

## Main definitions

- `Declaration`, `Method.declarations` — variables as they are declared, with their numbers
- `Bindings.comesFirst` — which of two bindings is printed first
- `Bindings.Prints` — the texts that bindings may be printed as

## Design notes

A variable is named by its position among the declarations; its number is read from the declaration
there.  Nothing is laid down about how bindings are sorted, but that the result has the same
bindings and none of them after one that it should come before.
-/

namespace FlowAnalysis

/-! ## Declared variables -/

/-- A variable as it is declared, with the number that it got. -/
structure Declaration where
  var : Var
  number : Nat

namespace Method

/-- The variable that a step of building a method declares, if it declares any. -/
def Edit.declared? : Edit → Option Var
  | newVar v | newParam v => some v
  | newReceiver type => some ⟨"this", type⟩
  | newStmt _ | line _ _ | target _ _ => none

/-- Declares a variable, which gets the number of declarations so far. -/
def declare (ds : List Declaration) (v : Var) : List Declaration := ds ++ [⟨v, ds.length⟩]

/-- The declarations that steps of building a method make, the oldest first. -/
def declarations (edits : List Edit) : List Declaration :=
  (edits.filterMap Edit.declared?).foldl declare []

end Method

/-! ## Printing -/

namespace Constants.Bindings

def nameIn (ds : List Declaration) (v : VarId) : String := (ds[v]?).elim "" (·.var.name)

def numberIn (ds : List Declaration) (v : VarId) : Nat := (ds[v]?).elim 0 Declaration.number

/-- Whether a binding is printed before another one. -/
def comesFirst (ds : List Declaration) (d e : VarId × Value) : Bool :=
  if bytes (nameIn ds d.1) ≠ bytes (nameIn ds e.1) then
    bytes (nameIn ds d.1) < bytes (nameIn ds e.1)
  else numberIn ds d.1 < numberIn ds e.1

/-- How bindings are printed in the order in which they stand. -/
def print (ds : List Declaration) (es : Bindings) : String :=
  "\x7b" ++ ", ".intercalate (es.map (Fact.entryText (nameIn ds))) ++ "\x7d"

/-- A text is what bindings are printed as once they are sorted. -/
def Prints (ds : List Declaration) (es : Bindings) (text : String) : Prop :=
  ∃ sorted : Bindings, sorted.Perm es ∧ sorted.Pairwise (fun d e => comesFirst ds e d = false) ∧
    text = print ds sorted

end Constants.Bindings

end FlowAnalysis
