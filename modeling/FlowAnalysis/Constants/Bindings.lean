import FlowAnalysis.Constants.Registers

/-!
# Facts as bindings

A fact in the form in which it is stored: variables bound to values, in an order of which nothing is
laid down.  A variable without a binding is `undef`.  Nothing but what the operations do keeps a
variable from being bound twice, or from being bound to `undef`.

## Main definitions

- `Bindings` — the bindings of a fact, in the order in which an iteration comes to them
- `Bindings.get`, `Bindings.update`, `Bindings.remove` — reading and writing one variable
- `Bindings.equals` — comparing two facts
- `Family` — facts that are worked on side by side, as bindings
- `Family.execute` — the family after a command, and what the command answers
- `Family.Reached` — the families that commands may lead to

## Design notes

A command may work on one fact under two names, so the steps of a command read from the family what
the steps before have left there: `Family.join` while a fact is merged, and `Family.transfer` after a
fact has been copied over another.
-/

namespace FlowAnalysis.Constants

/-- The bindings of a fact, in the order in which an iteration comes to them. -/
abbrev Bindings := List (VarId × Value)

namespace Bindings

/-- Whether a variable is bound. -/
def binds (es : Bindings) (v : VarId) : Bool := es.any (·.1 = v)

/-- What a variable is bound to; one that is not bound is `undef`. -/
def get (es : Bindings) (v : VarId) : Value := Fact.lookup v es

/-- Removes the binding of a variable, and says whether there was one. -/
def remove (es : Bindings) (v : VarId) : Bindings × Bool := (Fact.erase v es, es.binds v)

/-- Binds a variable, and says whether this changes anything; a variable that is set to `undef` is
not bound any more. -/
def update (es : Bindings) (v : VarId) (x : Value) : Bindings × Bool :=
  if x.isUndef then es.remove v
  else if !es.binds v then ((v, x) :: es, true)
  else if es.get v = x then (es, false)
  else (es.map fun e => if e.1 = v then (v, x) else e, true)

/-- Binds variables one after the other. -/
def updateAll (es ds : Bindings) : Bindings := ds.foldl (fun es d => (es.update d.1 d.2).1) es

/-- Whether as many variables are bound, and each to the same value. -/
def equals (es ds : Bindings) : Bool :=
  es.length = ds.length && es.all fun e => ds.binds e.1 && ds.get e.1 = e.2

def size (es : Bindings) : Nat := es.length

def isEmpty (es : Bindings) : Bool := List.isEmpty es

/-- The fact that the bindings make. -/
def toFact (es : Bindings) : Fact := Fact.setAll ∅ es

end Bindings

/-- Facts that are worked on side by side, as bindings, and named by integers. -/
abbrev Family := Int → Bindings

namespace Family

open Registers (Command Answer)

/-- Replaces one fact. -/
def write (σ : Family) (r : Int) (es : Bindings) : Family := fun q => if q = r then es else σ q

/-- Merges what the fact of `s` says of a variable into the fact of `r`. -/
def join (r s : Int) (σ : Family) (v : VarId) : Family :=
  σ.write r ((σ r).update v (((σ s).get v).join ((σ r).get v))).1

/-- Merges the fact of `s` into that of `r`, one binding after the other. -/
def merge (σ : Family) (r s : Int) : Family := ((σ s).map Prod.fst).foldl (join r s) σ

/-- Copies the fact of `s` over that of `r` and binds there what a statement defines, evaluated on
the fact of `s`. -/
def transfer (m : Method) (σ : Family) (r s : Int) (stmt : Stmt VarId) : Family :=
  let copied := σ.write r (σ s)
  match followed? m stmt with
  | some (v, e) => copied.write r ((copied r).update v (evaluate e (copied s).toFact)).1
  | none => copied

/-- What is known when a method is entered. -/
def boundary (m : Method) : Bindings :=
  (suppliedVars m).foldl (fun es v => (es.update v .nac).1) []

/-- Executes a command on the facts of a method. -/
def execute (m : Method) (σ : Family) : Command → Family × Answer
  | .update r v x => (σ.write r ((σ r).update v x).1, .flag ((σ r).update v x).2)
  | .remove r v => (σ.write r ((σ r).remove v).1, .flag ((σ r).remove v).2)
  | .get r v => (σ, .value ((σ r).get v))
  | .assign r es => (σ.write r (Bindings.updateAll [] es), .none)
  | .clear r => (σ.write r [], .none)
  | .copyTo r s => (σ.write s (σ r), .none)
  | .copyFrom r s => (σ.write r (σ s), .none)
  | .compare r s => (σ, .equal ((σ r).equals (σ s)))
  | .entries r => (σ, .entries ((σ r).mergeSort fun d e => d.1 ≤ e.1))
  | .merge r s => (σ.merge r s, .none)
  | .transfer r s stmt =>
    (σ.transfer m r s stmt, .flag !((σ r).equals (σ.transfer m r s stmt r)))
  | .evaluate r e => (σ, .value (evaluate e (σ r).toFact))
  | .boundary r => (σ.write r (boundary m), .none)
  | .initial r => (σ.write r [], .none)

/-- The families that commands may lead to from empty facts, each on the facts of its method.  Each
command may leave the bindings of all facts in another order. -/
inductive Reached : List (Method × Command) → Family → Prop
  | start : Reached [] fun _ => []
  | step {cs : List (Method × Command)} {σ τ : Family} {m : Method} {c : Command}
    (h : Reached cs σ) (hτ : ∀ r, (τ r).Perm ((σ.execute m c).1 r)) : Reached (cs ++ [(m, c)]) τ

end Family

/-- The fact that a command writes, if it writes any. -/
def Registers.Command.written? : Registers.Command → Option Int
  | update r _ _ | remove r _ | assign r _ | clear r | copyFrom r _ | merge r _ | transfer r _ _
  | boundary r | initial r => some r
  | copyTo _ s => some s
  | get _ _ | compare _ _ | entries _ | evaluate _ _ => none

end FlowAnalysis.Constants
