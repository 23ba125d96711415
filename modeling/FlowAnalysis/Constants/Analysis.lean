import FlowAnalysis.Constants.Evaluate
import FlowAnalysis.Solver.Run

/-!
# Constant propagation

Which variables hold a known constant before and after each statement of a method.  Only variables
whose type holds a 32-bit integer are followed.

## Main definitions

- `Constants.boundary` — what is known when a method is entered
- `Constants.effect` — what a statement does to a fact
- `Constants.analysis` — the dataflow analysis
- `Constants.report` — the facts after each statement, as text
-/

namespace FlowAnalysis.Constants

/-- The variables that come with a value when the method is called: the receiver and the
parameters, as far as they are followed. -/
def suppliedVars (m : Method) : List VarId := (m.receiver?.toList ++ m.params).filter m.holdsInt

/-- What is known when a method is entered: the receiver and the parameters may hold anything. -/
def boundary (m : Method) : Fact := (suppliedVars m).foldl (fun f v => f.set v .nac) ∅

def boundaryMessages (m : Method) : List Message :=
  [.boundary m.name ((boundary m).text m.nameOf)]

/-- The variable that a statement defines and the expression it defines it by, if the variable is
followed. -/
def followed? (m : Method) (s : Stmt VarId) : Option (VarId × Expr VarId) :=
  match s.definition? with
  | some ⟨some (.var v), e⟩ => if m.holdsInt v then some (v, e) else none
  | _ => none

/-- What a statement does to a fact: a followed variable that it defines gets the value of the
expression, and nothing else changes. -/
def effect (m : Method) (s : Stmt VarId) (f : Fact) : Fact :=
  match followed? m s with
  | some (v, e) => f.set v (evaluate e f)
  | none => f

def effectMessages (m : Method) (s : Stmt VarId) (f : Fact) : List Message :=
  match followed? m s with
  | some (_, e) => divisionMessages m e f
  | none => []

def transfer (m : Method) (s : Stmt VarId) (f recorded : Fact) : Transfer Fact :=
  .ofFact (effect m s f) recorded (effectMessages m s f)

def analysis (m : Method) : Analysis StmtId Fact where
  id := "constprop"
  direction := .forward
  boundary := boundary m
  boundaryMessages := boundaryMessages m
  initial := ∅
  merge := Fact.merge
  transfer n := transfer m ((m.stmt? n).getD .nop)

/-- The problem of following the constants of a method through a graph. -/
def problem (m : Method) (g : Graph StmtId) (o : Options) : Problem StmtId Fact :=
  ⟨g, analysis m, o⟩

/-- How a statement is reported: its position, its source line even if it is not known, the
statement itself, and what is known after it. -/
def reportLine (m : Method) (s : Solution StmtId Fact) (n : StmtId) : String :=
  let place := (m.body[n]?).getD { stmt := .nop }
  "[" ++ n.repr ++ "@L" ++ place.line.repr ++ "] " ++ m.stmtText place.stmt ++ " " ++
    (s.after.getD n ∅).text m.nameOf

/-- The report of a solution: a line for each node of the graph; every line ends in a newline. -/
def report (m : Method) (g : Graph StmtId) (s : Solution StmtId Fact) : String :=
  String.join (g.nodes.map fun n => reportLine m s n ++ "\n")

end FlowAnalysis.Constants
