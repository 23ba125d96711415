/-!
# Edges of a control-flow graph

## Main definitions

- `EdgeKind` — the ways in which control passes from one node to another
- `Edge` — an edge between two nodes
-/

namespace FlowAnalysis

/-- How control passes along an edge: into the first statement, on to the next statement, by an
unconditional jump, by either outcome of a condition, or out of the method. -/
inductive EdgeKind where
  | entry
  | fallThrough
  | goto
  | ifTrue
  | ifFalse
  | ret
  deriving DecidableEq

def EdgeKind.name : EdgeKind → String
  | entry => "ENTRY"
  | fallThrough => "FALL_THROUGH"
  | goto => "GOTO"
  | ifTrue => "IF_TRUE"
  | ifFalse => "IF_FALSE"
  | ret => "RETURN"

/-- An edge between nodes `N`.  Edges of different kinds between the same two nodes differ. -/
structure Edge (N : Type) where
  kind : EdgeKind
  source : N
  target : N
  deriving DecidableEq

def Edge.reverse {N : Type} (e : Edge N) : Edge N := ⟨e.kind, e.target, e.source⟩

@[simp]
theorem Edge.reverse_reverse {N : Type} (e : Edge N) : e.reverse.reverse = e := rfl

end FlowAnalysis
