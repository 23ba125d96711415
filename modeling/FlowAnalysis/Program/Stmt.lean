import FlowAnalysis.Program.Expr

/-!
# Statements

A statement either defines a place, moves control, or does nothing.  The three kinds of definition
— an assignment, a store to a field and a call — share one view, `Stmt.definition?`, which is all
that their text and the analyses look at.

## Main definitions

- `Stmt` — statements over variables `V`
- `Definition` — what a defining statement writes, and the expression it writes there
- `Stmt.definition?` — the definition in a statement
- `Stmt.vars` — the variables that a statement mentions
- `Stmt.text` — how a statement over names is written
-/

namespace FlowAnalysis

/-- A statement is named by its position in the body of its method. -/
abbrev StmtId := Nat

/-- A statement over variables `V`.  An absent variable on the left of an assignment or a call
discards the result, and an absent jump target is one that has not been chosen yet. -/
inductive Stmt (V : Type) where
  | nop
  | assign (result : Option V) (value : Expr V)
  | store (ref : FieldRef V) (value : V)
  | call (result : Option V) (call : Call V)
  | branch (condition : Condition V) (target : Option StmtId)
  | jump (target : Option StmtId)
  | ret (value : Option V)
  deriving DecidableEq

/-- A place that a definition writes. -/
inductive Place (V : Type) where
  | var (v : V)
  | field (ref : FieldRef V)
  deriving DecidableEq

/-- The right-hand side of a definition and the place that it is written to; there is no place
when the result is discarded. -/
structure Definition (V : Type) where
  place : Option (Place V)
  value : Expr V
  deriving DecidableEq

variable {V W : Type}

namespace Place

def text : Place String → String
  | var v => v
  | field r => r.text

end Place

/-- How a definition is written: the left side and the equals sign are left out when the result
is discarded. -/
def Definition.text (d : Definition String) : String :=
  match d.place with
  | some p => p.text ++ " = " ++ d.value.text ++ ";"
  | none => d.value.text ++ ";"

namespace Stmt

/-- The definition in a statement: assignments, stores and calls define, other statements do
not. -/
def definition? : Stmt V → Option (Definition V)
  | assign result value => some ⟨result.map .var, value⟩
  | store ref value => some ⟨some (.field ref), .var value⟩
  | call result c => some ⟨result.map .var, .invoke c⟩
  | nop | branch _ _ | jump _ | ret _ => none

def map (f : V → W) : Stmt V → Stmt W
  | nop => nop
  | assign result value => assign (result.map f) (value.map f)
  | store ref value => store (ref.map f) (f value)
  | call result c => call (result.map f) (c.map f)
  | branch condition target => branch (condition.map f) target
  | jump target => jump target
  | ret value => ret (value.map f)

/-- The variables that a statement mentions. -/
def vars : Stmt V → List V
  | nop | jump _ => []
  | assign result value => result.toList ++ value.vars
  | store ref value => [ref.base, value]
  | call result c => result.toList ++ c.args
  | branch condition _ => [condition.left, condition.right]
  | ret value => value.toList

def hasTarget : Stmt V → Bool
  | branch _ _ | jump _ => true
  | _ => false

/-- The statement that a jump goes to, if it has been chosen. -/
def target? : Stmt V → Option StmtId
  | branch _ target | jump target => target
  | _ => none

/-- Chooses the target of a jump; a statement that does not jump stays as it is. -/
def setTarget (target : Option StmtId) : Stmt V → Stmt V
  | branch condition _ => branch condition target
  | jump _ => jump target
  | s => s

/-- How a jump target is written: its position, or a question mark while there is none. -/
def targetText : Option StmtId → String
  | some i => i.repr
  | none => "?"

def text : Stmt String → String
  | nop => "nop;"
  | assign result value => Definition.text ⟨result.map .var, value⟩
  | store ref value => Definition.text ⟨some (.field ref), .var value⟩
  | call result c => Definition.text ⟨result.map .var, .invoke c⟩
  | branch condition target =>
    "if (" ++ condition.toExpr.text ++ ") goto " ++ targetText target ++ ";"
  | jump target => "goto " ++ targetText target ++ ";"
  | ret (some v) => "return " ++ v ++ ";"
  | ret none => "return;"

/-- The text of a definition depends on its view only. -/
theorem text_eq_of_definition? {s : Stmt String} {d : Definition String}
    (h : s.definition? = some d) : s.text = d.text := by
  cases s <;> simp only [definition?, Option.some.injEq, reduceCtorEq] at h <;> subst h <;> rfl

/-- A jump is written with its target behind the word `goto`. -/
theorem text_of_hasTarget {s : Stmt String} (h : s.hasTarget) :
    ∃ front, s.text = front ++ "goto " ++ targetText s.target? ++ ";" ∧
      (front = "" ∨ ∃ c : Condition String, front = "if (" ++ c.toExpr.text ++ ") ") := by
  cases s with
  | branch c t =>
    refine ⟨"if (" ++ c.toExpr.text ++ ") ", ?_, .inr ⟨c, rfl⟩⟩
    simp [text, target?, String.append_assoc]
  | jump t => exact ⟨"", by simp [text, target?], .inl rfl⟩
  | nop | assign | store | call | ret => cases h

/-- Choosing a target is visible exactly on the statements that jump. -/
theorem target?_setTarget (t : Option StmtId) (s : Stmt V) :
    (s.setTarget t).target? = if s.hasTarget then t else none := by
  cases s <;> rfl

@[simp]
theorem setTarget_setTarget (t u : Option StmtId) (s : Stmt V) :
    (s.setTarget t).setTarget u = s.setTarget u := by
  cases s <;> rfl

@[simp]
theorem hasTarget_map (f : V → W) (s : Stmt V) : (s.map f).hasTarget = s.hasTarget := by
  cases s <;> rfl

@[simp]
theorem target?_map (f : V → W) (s : Stmt V) : (s.map f).target? = s.target? := by
  cases s <;> rfl

@[simp]
theorem vars_setTarget (t : Option StmtId) (s : Stmt V) : (s.setTarget t).vars = s.vars := by
  cases s <;> rfl

@[simp]
theorem map_setTarget (f : V → W) (t : Option StmtId) (s : Stmt V) :
    (s.setTarget t).map f = (s.map f).setTarget t := by
  cases s <;> rfl

/-- What a renaming makes of a statement depends on the variables that are mentioned only. -/
theorem map_congr {f g : V → W} {s : Stmt V} (h : ∀ v ∈ s.vars, f v = g v) :
    s.map f = s.map g := by
  have hresult : ∀ result : Option V, (∀ v ∈ result.toList, f v = g v) →
      result.map f = result.map g := by
    intro result hr
    cases result with
    | none => rfl
    | some v => simp_all
  cases s with
  | assign result e =>
    simp only [vars, List.forall_mem_append] at h
    simp [map, hresult result h.1, Expr.map_congr h.2]
  | call result c =>
    simp only [vars, List.forall_mem_append] at h
    simpa [map, hresult result h.1, Call.map] using h.2
  | ret v => simp [map, hresult v h]
  | nop | store | branch | jump => simp_all [map, vars, FieldRef.map, Condition.map]

@[simp]
theorem map_map {X : Type} (f : V → W) (g : W → X) (s : Stmt V) :
    (s.map f).map g = s.map (g ∘ f) := by
  cases s <;> simp [map, Call.map, FieldRef.map, Condition.map]

end Stmt

end FlowAnalysis
