import FlowAnalysis.Constants.Analysis

/-!
# Registers of facts

A family of facts that are worked on side by side.  A register holds a fact; one that has never
been written holds the empty fact.

## Main definitions

- `Registers` — a family of facts
- `Registers.Command` — what can be done with them
- `Registers.execute` — the family after a command, and what the command answers
- `Registers.run` — the family that commands lead to
-/

namespace FlowAnalysis.Constants

/-- A family of facts, named by integers. -/
abbrev Registers := Table Int Fact

namespace Registers

def fact (rs : Registers) (r : Int) : Fact := rs.getD r ∅

/-- What can be done with registers; the register named first is worked on. -/
inductive Command where
  | update (r : Int) (v : VarId) (x : Value)
  | remove (r : Int) (v : VarId)
  | get (r : Int) (v : VarId)
  /-- Replaces the fact by the one that the entries make, set one after the other. -/
  | assign (r : Int) (entries : List (VarId × Value))
  | clear (r : Int)
  /-- Copies the fact of the first register to the second. -/
  | copyTo (r s : Int)
  /-- Copies the fact of the second register to the first. -/
  | copyFrom (r s : Int)
  | compare (r s : Int)
  | entries (r : Int)
  /-- Merges the fact of the second register into the first. -/
  | merge (r s : Int)
  /-- Passes the fact of the second register through a statement and records it in the first. -/
  | transfer (r s : Int) (stmt : Stmt VarId)
  | evaluate (r : Int) (e : Expr VarId)
  /-- Replaces the fact by what is known when the method is entered. -/
  | boundary (r : Int)
  /-- Replaces the fact by the one before anything is known. -/
  | initial (r : Int)

inductive Answer where
  | none
  | flag (b : Bool)
  | value (x : Value)
  | equal (b : Bool)
  | entries (es : List (VarId × Value))
  deriving DecidableEq

structure Response where
  registers : Registers
  answer : Answer := .none
  messages : List Message := []

def Command.register : Command → Int
  | update r .. | remove r .. | get r .. | assign r .. | clear r | copyTo r _ | copyFrom r _
  | compare r _ | entries r | merge r _ | transfer r .. | evaluate r _ | boundary r
  | initial r => r

/-- Records a fact in a register, and answers whether the register held another one before. -/
def record (rs : Registers) (r : Int) (f : Fact) : Response :=
  ⟨rs.insert r f, .flag (f ≠ rs.fact r), []⟩

/-- Executes a command on the facts of a method. -/
def execute (m : Method) (rs : Registers) : Command → Response
  | .update r v x => rs.record r ((rs.fact r).set v x)
  | .remove r v => rs.record r ((rs.fact r).remove v)
  | .get r v => ⟨rs, .value ((rs.fact r).get v), []⟩
  | .assign r es => ⟨rs.insert r (Fact.setAll ∅ es), .none, []⟩
  | .clear r => ⟨rs.insert r ∅, .none, []⟩
  | .copyTo r s => ⟨rs.insert s (rs.fact r), .none, []⟩
  | .copyFrom r s => ⟨rs.insert r (rs.fact s), .none, []⟩
  | .compare r s => ⟨rs, .equal (rs.fact r = rs.fact s), []⟩
  | .entries r => ⟨rs, .entries (rs.fact r).entries, []⟩
  | .merge r s => ⟨rs.insert r ((rs.fact s).merge (rs.fact r)), .none, []⟩
  | .transfer r s stmt =>
    let t := Constants.transfer m stmt (rs.fact s) (rs.fact r)
    ⟨rs.insert r t.fact, .flag t.changed, t.messages⟩
  | .evaluate r e =>
    ⟨rs, .value (Constants.evaluate e (rs.fact r)), divisionMessages m e (rs.fact r)⟩
  | .boundary r => ⟨rs.insert r (Constants.boundary m), .none, boundaryMessages m⟩
  | .initial r => ⟨rs.insert r ∅, .none, []⟩

/-- The family that commands lead to from empty facts, each on the facts of its method. -/
def run (cs : List (Method × Command)) : Registers :=
  cs.foldl (fun rs c => (rs.execute c.1 c.2).registers) ∅

end Registers

end FlowAnalysis.Constants
