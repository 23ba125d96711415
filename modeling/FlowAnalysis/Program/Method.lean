import FlowAnalysis.Program.Stmt

/-!
# Method bodies

A method body is a list of variables, the parameters and the receiver among them, and a list of
statements with their source lines.  Variables and statements are named by their positions, which
never change because both lists only grow.

## Main definitions

- `Method` — a method and its body
- `Method.Edit`, `Method.edit` — one step of building a method
- `Method.listing` — the body as text, one line for each statement
-/

namespace FlowAnalysis

/-- A variable is named by its position among the variables of its method. -/
abbrev VarId := Nat

structure Var where
  name : String
  type : Ty
  deriving DecidableEq

/-- A statement and the source line it stands on; the line is negative when it is not known. -/
structure Located where
  stmt : Stmt VarId
  line : Int := -1
  deriving DecidableEq

@[ext]
structure Method where
  name : String
  vars : List Var := []
  /-- The formal parameters, in order. -/
  params : List VarId := []
  /-- The variable `this` of an instance method. -/
  receiver? : Option VarId := none
  body : List Located := []
  deriving DecidableEq

namespace Method

def nameOf (m : Method) (v : VarId) : String := (m.vars[v]?).elim "" Var.name

/-- Whether a variable is declared with a type that holds a 32-bit integer. -/
def holdsInt (m : Method) (v : VarId) : Bool := (m.vars[v]?).any (·.type.holdsInt)

def stmt? (m : Method) (i : StmtId) : Option (Stmt VarId) := (m.body[i]?).map Located.stmt

def exprText (m : Method) (e : Expr VarId) : String := (e.map m.nameOf).text

def stmtText (m : Method) (s : Stmt VarId) : String := (s.map m.nameOf).text

/-! ## Building a method -/

/-- Declares a variable; its position is the number of variables before it. -/
def addVar (m : Method) (v : Var) : Method := { m with vars := m.vars ++ [v] }

/-- Declares a variable and makes it the last formal parameter. -/
def addParam (m : Method) (v : Var) : Method :=
  { m.addVar v with params := m.params ++ [m.vars.length] }

/-- Declares the variable `this` and makes it the receiver, in place of an earlier one. -/
def setReceiver (m : Method) (type : Ty) : Method :=
  { m.addVar ⟨"this", type⟩ with receiver? := some m.vars.length }

/-- Appends a statement; its position is the number of statements before it. -/
def addStmt (m : Method) (s : Located) : Method := { m with body := m.body ++ [s] }

def setLine (m : Method) (i : StmtId) (line : Int) : Method :=
  { m with body := m.body.modify i fun s => { s with line } }

def setTarget (m : Method) (i : StmtId) (target : Option StmtId) : Method :=
  { m with body := m.body.modify i fun s => { s with stmt := s.stmt.setTarget target } }

/-- One step of building a method. -/
inductive Edit where
  | newVar (v : Var)
  | newParam (v : Var)
  | newReceiver (type : Ty)
  | newStmt (s : Located)
  | line (i : StmtId) (line : Int)
  | target (i : StmtId) (target : Option StmtId)
  deriving DecidableEq

def edit (m : Method) : Edit → Method
  | .newVar v => m.addVar v
  | .newParam v => m.addParam v
  | .newReceiver type => m.setReceiver type
  | .newStmt s => m.addStmt s
  | .line i line => m.setLine i line
  | .target i target => m.setTarget i target

/-- The method that a sequence of steps builds from an empty body. -/
def build (name : String) (edits : List Edit) : Method := edits.foldl edit { name }

/-! ## Text -/

/-- How the method's name and parameters are written, with the types of the parameters. -/
def heading (m : Method) : String :=
  let param (v : VarId) := ((m.vars[v]?).elim "" (·.type.name)) ++ " " ++ m.nameOf v
  m.name ++ "(" ++ ", ".intercalate (m.params.map param) ++ ")"

/-- How the statement at a position of the body is listed: indented, with its position and, if it
is known, its source line. -/
def listingLine (m : Method) (i : StmtId) (s : Located) : String :=
  let line := if 0 ≤ s.line then "@L" ++ s.line.repr else ""
  "  " ++ i.repr ++ line ++ ": " ++ m.stmtText s.stmt

/-- The lines of the listing: the heading, then one line for each statement. -/
def listingLines (m : Method) : List String := m.heading :: m.body.mapIdx m.listingLine

/-- The method as text; every line ends in a newline. -/
def listing (m : Method) : String := String.join (m.listingLines.map (· ++ "\n"))

end Method

end FlowAnalysis
