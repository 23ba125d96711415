import FlowAnalysis.Program.Method

/-!
# Drafts

A method body while it is being built, in the form in which it is held.  Variables, expressions and
statements are objects that are kept at addresses and refer to each other by these.  A variable and
a statement get a number when they are made; nothing but the way in which the steps count makes it
the place that they have in the method.

## Main definitions

- `Object` — variables, expressions and statements, as they are kept
- `Draft` — a method body under construction, among the objects that there are
- `Draft.Step`, `Draft.execute` — one step of building it
- `Draft.Allows`, `Draft.Takes` — the steps that can be taken
- `Draft.stmt?`, `Draft.listing?` — what objects say, and how they are written
- `Draft.toMethod`, `Draft.edits` — the method that a draft stands for, and how it is built

## Design notes

Nothing is laid down about addresses but that a new object comes where none is yet.  Objects of
other methods may be there from the start, so that only what a step asks for ties a statement to
its method: the targets of jumps are its statements, but variables and expressions may come from
elsewhere.  No list of expressions is kept, as nothing would read it.

Numbers have no bound.  Where they are held in words of 32 bits instead, they are taken modulo
`2 ^ 32`, so that both say the same of a method with no more than `2 ^ 32` variables and no more than
`2 ^ 32` statements.  The first number that differs is that of the next object: here it is `2 ^ 32`,
and there it is `0` once more.
-/

namespace FlowAnalysis

/-! ## Objects -/

/-- What a statement consists of.  Variables, expressions and statements are named by the addresses
at which they are kept; the field of a store, the call and the condition are expressions. -/
inductive StmtForm (A : Type) where
  | nop
  | assign (result : Option A) (value : A)
  | store (ref value : A)
  | call (result : Option A) (call : A)
  | branch (condition : A) (target : Option A)
  | jump (target : Option A)
  | ret (value : Option A)
  deriving DecidableEq

/-- A statement with its number and the source line it stands on. -/
structure StmtObject (A : Type) where
  form : StmtForm A
  number : Nat
  line : Int
  deriving DecidableEq

/-- What is kept at an address: a variable with its number, another expression, or a statement. -/
inductive Object (A : Type) where
  | var (v : Var) (number : Nat)
  | expr (e : Expr A)
  | stmt (s : StmtObject A)
  deriving DecidableEq

variable {A : Type}

namespace StmtForm

def hasTarget : StmtForm A → Bool
  | branch _ _ | jump _ => true
  | _ => false

/-- The statement that a jump goes to, if it has been chosen. -/
def target? : StmtForm A → Option A
  | branch _ target | jump target => target
  | _ => none

/-- Chooses the target of a jump; a statement that does not jump stays as it is. -/
def setTarget (target : Option A) : StmtForm A → StmtForm A
  | branch condition _ => branch condition target
  | jump _ => jump target
  | s => s

end StmtForm

namespace Object

/-- The variable that an object is, and its number. -/
def var? : Object A → Option (Var × VarId)
  | var v n => some (v, n)
  | _ => none

/-- The expression that an object at an address is; a variable is an expression too. -/
def expr? (a : A) : Object A → Option (Expr A)
  | var _ _ => some (.var a)
  | expr e => some e
  | stmt _ => none

/-- The number that a statement got. -/
def stmtNumber? : Object A → Option StmtId
  | stmt s => some s.number
  | _ => none

def isStmt : Object A → Bool
  | stmt _ => true
  | _ => false

/-- Whether an object is a statement that jumps. -/
def jumps : Object A → Bool
  | stmt s => s.form.hasTarget
  | _ => false

/-- Changes an object if it is a statement. -/
def mapStmt (f : StmtObject A → StmtObject A) : Object A → Object A
  | stmt s => stmt (f s)
  | o => o

@[simp]
theorem mapStmt_id : mapStmt (id : StmtObject A → StmtObject A) = id := by
  funext o
  cases o <;> rfl

@[simp]
theorem var?_mapStmt (f : StmtObject A → StmtObject A) (o : Object A) :
    (o.mapStmt f).var? = o.var? := by
  cases o <;> rfl

@[simp]
theorem expr?_mapStmt (f : StmtObject A → StmtObject A) (a : A) (o : Object A) :
    (o.mapStmt f).expr? a = o.expr? a := by
  cases o <;> rfl

theorem stmtNumber?_mapStmt {f : StmtObject A → StmtObject A} (hf : ∀ s, (f s).number = s.number)
    (o : Object A) : (o.mapStmt f).stmtNumber? = o.stmtNumber? := by
  cases o with
  | stmt s => exact congrArg some (hf s)
  | var | expr => rfl

end Object

/-- A method body under construction, among the objects that are kept. -/
structure Draft (A : Type) where
  name : String
  heap : A → Option (Object A)
  /-- The variables of the method, the oldest first. -/
  vars : List A := []
  params : List A := []
  receiver? : Option A := none
  /-- The statements of the method, the oldest first. -/
  stmts : List A := []

namespace Draft

/-! ## Reading objects -/

def var? (d : Draft A) (a : A) : Option (Var × VarId) := (d.heap a).bind Object.var?

def expr? (d : Draft A) (a : A) : Option (Expr A) := (d.heap a).bind (Object.expr? a)

def stmtNumber? (d : Draft A) (a : A) : Option StmtId := (d.heap a).bind Object.stmtNumber?

def nameOf (d : Draft A) (a : A) : String := (d.var? a).elim "" (·.1.name)

def numberOf (d : Draft A) (a : A) : VarId := (d.var? a).elim 0 Prod.snd

/-- The number of the target that was chosen for a jump, if one was. -/
def targetNumber? (d : Draft A) : Option A → Option (Option StmtId)
  | some a => (d.stmtNumber? a).map some
  | none => some none

/-- The statement that a form stands for, if there is everything that it refers to. -/
def stmt? (d : Draft A) : StmtForm A → Option (Stmt A)
  | .nop => some .nop
  | .assign result a => (d.expr? a).map (.assign result)
  | .store a v => ((d.expr? a).bind Expr.field?).map (.store · v)
  | .call result a => ((d.expr? a).bind Expr.call?).map (.call result)
  | .branch a t =>
    ((d.expr? a).bind Expr.condition?).bind fun c => (d.targetNumber? t).map (.branch c)
  | .jump t => (d.targetNumber? t).map .jump
  | .ret value => some (.ret value)

/-- The variables that the statement at an address mentions. -/
def mentioned (d : Draft A) (a : A) : List A :=
  match d.heap a with
  | some (.stmt s) => (d.stmt? s.form).elim [] Stmt.vars
  | _ => []

/-- Statements mention no variables but those of the method. -/
def Closed (d : Draft A) : Prop := ∀ a ∈ d.stmts, ∀ v ∈ d.mentioned a, v ∈ d.vars

/-! ## Text -/

/-- How a source line is listed, if it is known. -/
def lineText (line : Int) : String := if 0 ≤ line then "@L" ++ line.repr else ""

def paramText (d : Draft A) (a : A) : String :=
  ((d.var? a).elim "" (·.1.type.name)) ++ " " ++ d.nameOf a

/-- How the method's name and parameters are written. -/
def heading (d : Draft A) : String :=
  d.name ++ "(" ++ ", ".intercalate (d.params.map d.paramText) ++ ")"

/-- How the statement at an address is listed: with the number that it got, its source line if that
is known, and the numbers that the targets of jumps got. -/
def listed? (d : Draft A) (a : A) : Option String :=
  match d.heap a with
  | some (.stmt s) => (d.stmt? s.form).map fun stmt =>
    "  " ++ s.number.repr ++ lineText s.line ++ ": " ++ (stmt.map d.nameOf).text ++ "\n"
  | _ => none

/-- The method as text: the heading, and one entry for each statement. -/
def listing? (d : Draft A) : Option String :=
  (d.stmts.mapM d.listed?).map fun es => d.heading ++ "\n" ++ String.join es

/-! ## Building a draft -/

variable [DecidableEq A]

/-- Keeps an object at an address. -/
def put (d : Draft A) (a : A) (o : Object A) : Draft A :=
  { d with heap := fun b => if b = a then some o else d.heap b }

/-- Changes the statement at an address, if there is one. -/
def modify (d : Draft A) (a : A) (f : StmtObject A → StmtObject A) : Draft A :=
  { d with heap := fun b => if b = a then (d.heap b).map (Object.mapStmt f) else d.heap b }

/-- Declares a variable, which gets the number of variables before it. -/
def addVar (d : Draft A) (a : A) (v : Var) : Draft A :=
  { d.put a (.var v d.vars.length) with vars := d.vars ++ [a] }

/-- Declares a variable and makes it the last formal parameter. -/
def addParam (d : Draft A) (a : A) (v : Var) : Draft A :=
  { d.addVar a v with params := d.params ++ [a] }

/-- Declares the variable `this` and makes it the receiver, in place of an earlier one. -/
def setReceiver (d : Draft A) (a : A) (type : Ty) : Draft A :=
  { d.addVar a ⟨"this", type⟩ with receiver? := some a }

/-- Appends a statement, which gets the number of statements before it and no source line. -/
def addStmt (d : Draft A) (a : A) (form : StmtForm A) : Draft A :=
  { d.put a (.stmt ⟨form, d.stmts.length, -1⟩) with stmts := d.stmts ++ [a] }

/-- One step of building a draft.  What is new comes to the address that is named first. -/
inductive Step (A : Type) where
  | newVar (a : A) (v : Var)
  | newParam (a : A) (v : Var)
  | newReceiver (a : A) (type : Ty)
  /-- Makes an expression; if it is a variable, it is none that the method declares. -/
  | newExpr (a : A) (o : Object A)
  | newStmt (a : A) (form : StmtForm A)
  | line (a : A) (line : Int)
  | target (a : A) (target : Option A)
  deriving DecidableEq

def execute (d : Draft A) : Step A → Draft A
  | .newVar a v => d.addVar a v
  | .newParam a v => d.addParam a v
  | .newReceiver a type => d.setReceiver a type
  | .newExpr a o => d.put a o
  | .newStmt a form => d.addStmt a form
  | .line a line => d.modify a fun s => { s with line }
  | .target a target => d.modify a fun s => { s with form := s.form.setTarget target }

def executeAll (d : Draft A) (ps : List (Step A)) : Draft A := ps.foldl execute d

/-- A form refers to expressions of the right kind, to variables that are there, and to no
statements but those of the method. -/
def Sound (d : Draft A) (form : StmtForm A) : Prop :=
  (∃ s ∈ d.stmt? form, ∀ v ∈ s.vars, (d.var? v).isSome) ∧ ∀ b ∈ form.target?, b ∈ d.stmts

/-- A step can be taken: what is new comes to an address at which nothing is yet, and what the step
refers to is there. -/
def Allows (d : Draft A) : Step A → Prop
  | .newVar a _ | .newParam a _ | .newReceiver a _ => d.heap a = none
  | .newExpr a o => d.heap a = none ∧ o.isStmt = false
  | .newStmt a form => d.heap a = none ∧ d.Sound form
  | .line a _ => a ∈ d.stmts
  | .target a t => a ∈ d.stmts ∧ (d.heap a).any Object.jumps ∧ ∀ b ∈ t, b ∈ d.stmts

/-- Steps can be taken one after the other. -/
def Takes (d : Draft A) : List (Step A) → Prop
  | [] => True
  | p :: ps => d.Allows p ∧ (d.execute p).Takes ps

instance (d : Draft A) (form : StmtForm A) : Decidable (d.Sound form) :=
  inferInstanceAs (Decidable (_ ∧ _))

instance (d : Draft A) : Decidable d.Closed := inferInstanceAs (Decidable (∀ a ∈ d.stmts, _))

instance decidableAllows (d : Draft A) : (p : Step A) → Decidable (d.Allows p)
  | .newVar a _ | .newParam a _ | .newReceiver a _ => inferInstanceAs (Decidable (d.heap a = none))
  | .newExpr _ _ | .newStmt _ _ | .target _ _ => inferInstanceAs (Decidable (_ ∧ _))
  | .line a _ => inferInstanceAs (Decidable (a ∈ d.stmts))

instance decidableTakes : (d : Draft A) → (ps : List (Step A)) → Decidable (d.Takes ps)
  | _, [] => inferInstanceAs (Decidable True)
  | d, p :: ps =>
    have := decidableTakes (d.execute p) ps
    inferInstanceAs (Decidable (_ ∧ _))

/-- A draft in which nothing has been made yet. -/
def blank (name : String) (heap : A → Option (Object A)) : Draft A := { name, heap }

/-! ## The method that a draft stands for -/

/-- The statement that an object is, with all variables named by their numbers. -/
def located? (d : Draft A) : Object A → Option Located
  | .stmt s => (d.stmt? s.form).map fun stmt => ⟨stmt.map d.numberOf, s.line⟩
  | _ => none

/-- The method that a draft stands for, as far as there is everything that it refers to. -/
def toMethod (d : Draft A) : Method where
  name := d.name
  vars := d.vars.filterMap fun a => (d.var? a).map Prod.fst
  params := d.params.map d.numberOf
  receiver? := d.receiver?.map d.numberOf
  body := d.stmts.filterMap fun a => (d.heap a).bind d.located?

/-- What a step does to the method, if it does anything to it. -/
def edit? (d : Draft A) : Step A → Option Method.Edit
  | .newVar _ v => some (.newVar v)
  | .newParam _ v => some (.newParam v)
  | .newReceiver _ type => some (.newReceiver type)
  | .newExpr _ _ => none
  | .newStmt _ form => (d.stmt? form).map fun s => .newStmt ⟨s.map d.numberOf, -1⟩
  | .line a line => (d.stmtNumber? a).map (.line · line)
  | .target a t => (d.stmtNumber? a).bind fun i => (d.targetNumber? t).map (.target i)

/-- What steps do to the method, one after the other. -/
def edits (d : Draft A) : List (Step A) → List Method.Edit
  | [] => []
  | p :: ps => (d.edit? p).toList ++ (d.execute p).edits ps

end Draft

end FlowAnalysis
