import FlowAnalysis.Diagnostics

/-!
# Dataflow analyses

An analysis says which facts there are at the start and elsewhere, how facts are merged where
paths meet, and what a node and an edge do to a fact.

## Main definitions

- `Transfer` — what came of passing a fact through a node
- `Analysis` — a dataflow analysis over nodes `N` with facts `φ`

## Design notes

`Analysis.transfer` is also given the fact recorded earlier at the far side of the node, and it
reports itself whether the recorded fact changes.  Nothing forces it to ignore the recorded fact or
to report truthfully; `Analysis.Overwrites` says that it does both.
-/

namespace FlowAnalysis

/-- What came of passing a fact through a node: the fact to record, whether it is reported as
changed, and what there is to report besides. -/
structure Transfer (φ : Type) where
  fact : φ
  changed : Bool
  messages : List Message := []

structure Analysis (N φ : Type) where
  /-- The name that an error names the analysis by. -/
  id : String
  direction : Direction
  /-- The fact that comes to the node at which the flow starts. -/
  boundary : φ
  /-- What there is to report when the boundary fact is made. -/
  boundaryMessages : List Message := []
  /-- The fact everywhere else, before anything is known. -/
  initial : φ
  /-- `merge fact target` is `target` with `fact` merged into it. -/
  merge : φ → φ → φ
  /-- `transfer node fact recorded` passes `fact` through `node`, where `recorded` was recorded
  before. -/
  transfer : N → φ → φ → Transfer φ
  /-- Whether facts change along an edge. -/
  needsEdgeTransfer : Edge N → Bool := fun _ => false
  /-- The fact at the far end of an edge along which facts change, or nothing if the analysis
  cannot pass facts along that edge. -/
  edgeTransfer : Edge N → φ → Option φ := fun _ _ => none

/-- The analysis computes each node's new fact from the arriving fact alone, by `f`, and reports a
change exactly when the new fact differs from the recorded one. -/
def Analysis.Overwrites {N φ : Type} (a : Analysis N φ) (f : N → φ → φ) : Prop :=
  ∀ n fact recorded, (a.transfer n fact recorded).fact = f n fact ∧
    ((a.transfer n fact recorded).changed = true ↔ f n fact ≠ recorded)

/-- Passes a fact through a node by a function, and reports a change exactly when there is one. -/
def Transfer.ofFact {φ : Type} [DecidableEq φ] (fact recorded : φ) (messages : List Message) :
    Transfer φ := ⟨fact, fact ≠ recorded, messages⟩

end FlowAnalysis
