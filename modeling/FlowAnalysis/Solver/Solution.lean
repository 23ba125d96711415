import FlowAnalysis.Table

/-!
# Solutions

A solution records, for each node, what holds before the node and what holds after it.

## Main definitions

- `Solution` — facts before and after each node
- `Solution.agrees` — whether two solutions record the same facts
-/

namespace FlowAnalysis

/-- The facts before and after each node, in the order of the program and whatever the direction in
which they were found. -/
structure Solution (N φ : Type) where
  before : Table N φ := ∅
  after : Table N φ := ∅

namespace Solution

variable {N φ : Type}

instance : EmptyCollection (Solution N φ) := ⟨{}⟩

instance : Inhabited (Solution N φ) := ⟨∅⟩

def size (s : Solution N φ) : Nat := s.before.size

variable [DecidableEq N]

def setBefore (s : Solution N φ) (n : N) (fact : φ) : Solution N φ :=
  { s with before := s.before.insert n fact }

def setAfter (s : Solution N φ) (n : N) (fact : φ) : Solution N φ :=
  { s with after := s.after.insert n fact }

/-- Whether two solutions record the same facts for the same nodes. -/
def agrees [DecidableEq φ] (s t : Solution N φ) : Bool :=
  s.before.agrees t.before && s.after.agrees t.after

end Solution

end FlowAnalysis
