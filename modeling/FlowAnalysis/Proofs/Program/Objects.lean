import FlowAnalysis.Program.Draft
import Mathlib.Data.List.Induction

/-!
# Objects of a draft

Whatever is done to a draft, an object stays what it was made as, but for the source line and the
target of a statement, which are those that were set last.  This is why objects can be counted once
and for all: the number of a variable or a statement is its place in the method.

## Main definitions

- `Object.after` — an object after steps that may have changed it
- `Draft.WellFormed` — numbers are places, and everything that is referred to is there

## Main statements

- `Draft.heap_executeAll` — what steps make of an object
- `Draft.heap_executeAll_of_makes?` — what has become of an object that a step has made
- `Draft.stmts_executeAll` and the like — the lists of a draft tell its history
- `Draft.WellFormed.executeAll` — steps keep a draft well-formed
-/

namespace FlowAnalysis

variable {A : Type} [DecidableEq A]

/-! ## What steps change -/

namespace Draft

namespace Step

/-- The source line that a step sets for the statement at an address. -/
def lineOf? (b : A) : Step A → Option Int
  | line a l => if a = b then some l else none
  | _ => none

/-- The target that a step chooses for the statement at an address. -/
def targetOf? (b : A) : Step A → Option (Option A)
  | target a t => if a = b then some t else none
  | _ => none

/-- Where a step declares a variable. -/
def var? : Step A → Option A
  | newVar a _ | newParam a _ | newReceiver a _ => some a
  | _ => none

/-- Where a step declares a formal parameter. -/
def param? : Step A → Option A
  | newParam a _ => some a
  | _ => none

/-- Where a step declares the receiver. -/
def receiver? : Step A → Option A
  | newReceiver a _ => some a
  | _ => none

/-- Where a step appends a statement. -/
def stmt? : Step A → Option A
  | newStmt a _ => some a
  | _ => none

end Step

/-- The object that a step makes, and the address that it comes to. -/
def makes? (d : Draft A) : Step A → Option (A × Object A)
  | .newVar a v | .newParam a v => some (a, .var v d.vars.length)
  | .newReceiver a type => some (a, .var ⟨"this", type⟩ d.vars.length)
  | .newExpr a o => some (a, o)
  | .newStmt a form => some (a, .stmt ⟨form, d.stmts.length, -1⟩)
  | .line _ _ | .target _ _ => none

end Draft

open Draft (Step)

/-- A statement at an address after steps: it has the source line and the target that were set
last. -/
def StmtObject.after (b : A) (ps : List (Step A)) (s : StmtObject A) : StmtObject A where
  form := (ps.filterMap (Step.targetOf? b)).getLast?.elim s.form s.form.setTarget
  number := s.number
  line := (ps.filterMap (Step.lineOf? b)).getLast?.getD s.line

/-- An object at an address after steps; only statements change. -/
def Object.after (b : A) (ps : List (Step A)) : Object A → Object A :=
  mapStmt (StmtObject.after b ps)

variable {ps qs : List (Step A)} {p : Step A} {a b : A} {o : Object A} {s : StmtObject A}

omit [DecidableEq A] in
@[simp]
theorem StmtForm.setTarget_setTarget (t u : Option A) (f : StmtForm A) :
    (f.setTarget t).setTarget u = f.setTarget u := by
  cases f <;> rfl

namespace StmtObject

theorem after_append (b : A) (ps qs : List (Step A)) (s : StmtObject A) :
    s.after b (ps ++ qs) = (s.after b ps).after b qs := by
  simp only [after, List.filterMap_append, List.getLast?_append]
  cases (qs.filterMap (Step.targetOf? b)).getLast? <;>
    cases (ps.filterMap (Step.targetOf? b)).getLast? <;>
      cases (qs.filterMap (Step.lineOf? b)).getLast? <;> simp

theorem after_line (b a : A) (l : Int) :
    after b [.line a l] = if b = a then fun s => { s with line := l } else id := by
  split <;> simp_all [funext_iff, after, Step.lineOf?, Step.targetOf?, eq_comm]

theorem after_target (b a : A) (t : Option A) :
    after b [.target a t] =
      if b = a then fun s => { s with form := s.form.setTarget t } else id := by
  split <;> simp_all [funext_iff, after, Step.lineOf?, Step.targetOf?, eq_comm]

end StmtObject

namespace Object

theorem after_nil (b : A) (o : Object A) : o.after b [] = o := congrFun mapStmt_id o

theorem after_append (b : A) (ps qs : List (Step A)) (o : Object A) :
    o.after b (ps ++ qs) = (o.after b ps).after b qs := by
  cases o with
  | stmt s => exact congrArg stmt (s.after_append b ps qs)
  | var | expr => rfl

end Object

namespace Draft

variable {d : Draft A}

/-! ## Objects under steps -/

theorem heap_put (d : Draft A) (a b : A) (o : Object A) :
    (d.put a o).heap b = if b = a then some o else d.heap b := rfl

theorem heap_modify (d : Draft A) (a b : A) (f : StmtObject A → StmtObject A) :
    (d.modify a f).heap b = (d.heap b).map (Object.mapStmt (if b = a then f else id)) := by
  by_cases h : b = a <;> simp [modify, h]

/-- A step that makes an object changes none. -/
theorem after_of_makes? (hmakes : (d.makes? p).isSome) (b : A) (o : Object A) :
    o.after b [p] = o := by
  cases p with
  | newVar | newParam | newReceiver | newExpr | newStmt => cases o <;> rfl
  | line | target => cases hmakes

/-- What a step makes of an object. -/
theorem heap_execute (hp : d.Allows p) (ho : d.heap b = some o) :
    (d.execute p).heap b = some (o.after b [p]) := by
  -- What is new comes elsewhere, since there is something at `b`.
  have hnew : ∀ a o', d.heap a = none → (d.put a o').heap b = some o := by
    intro a o' ha
    have hne : b ≠ a := by
      rintro rfl
      rw [ha] at ho
      cases ho
    rw [heap_put, if_neg hne, ho]
  cases p with
  | newVar a v | newParam a v | newReceiver a type =>
    rw [after_of_makes? (d := d) rfl]
    exact hnew a _ hp
  | newExpr a o' | newStmt a form =>
    rw [after_of_makes? (d := d) rfl]
    exact hnew a _ hp.1
  | line a l => rw [execute, heap_modify, ho, Object.after, StmtObject.after_line, Option.map_some]
  | target a t =>
    rw [execute, heap_modify, ho, Object.after, StmtObject.after_target, Option.map_some]

/-- What steps make of an object. -/
theorem heap_executeAll (hps : d.Takes ps) (ho : d.heap b = some o) :
    (d.executeAll ps).heap b = some (o.after b ps) := by
  induction ps generalizing d o with
  | nil => rw [o.after_nil, ← ho]; rfl
  | cons p ps ih =>
    rw [← List.singleton_append, Object.after_append]
    exact ih hps.2 (heap_execute hps.1 ho)

theorem heap_execute_of_makes? (h : d.makes? p = some (a, o)) :
    (d.execute p).heap a = some o := by
  cases p with
  | line | target => cases h
  | newVar | newParam | newReceiver | newExpr | newStmt => cases h; exact if_pos rfl

theorem takes_append : d.Takes (ps ++ qs) ↔ d.Takes ps ∧ (d.executeAll ps).Takes qs := by
  induction ps generalizing d with
  | nil => simp [Takes, executeAll]
  | cons p ps ih => simp [Takes, executeAll, ih, and_assoc]

/-- What has become of an object that a step has made. -/
theorem heap_executeAll_of_makes? {before after : List (Step A)}
    (hps : d.Takes (before ++ p :: after))
    (hmakes : (d.executeAll before).makes? p = some (a, o)) :
    (d.executeAll (before ++ p :: after)).heap a = some (o.after a after) := by
  rw [executeAll, List.foldl_append]
  exact heap_executeAll (takes_append.mp hps).2.2 (heap_execute_of_makes? hmakes)

/-! ## The lists of a draft -/

/-- A list at the end of which a step may put something has at its end what all steps have put
there. -/
private theorem eq_append_filterMap {B : Type} {list : Draft A → List B} {new? : Step A → Option B}
    (hstep : ∀ d p, list (d.execute p) = list d ++ (new? p).toList) (d : Draft A)
    (ps : List (Step A)) : list (d.executeAll ps) = list d ++ ps.filterMap new? := by
  induction ps generalizing d with
  | nil => exact (List.append_nil _).symm
  | cons p ps ih =>
    rw [executeAll, List.foldl_cons, ← executeAll, ih, hstep, List.append_assoc]
    cases h : new? p <;> simp [h]

theorem vars_execute (d : Draft A) (p : Step A) :
    (d.execute p).vars = d.vars ++ p.var?.toList := by
  cases p with
  | newVar | newParam | newReceiver => rfl
  | newExpr | newStmt | line | target => exact (List.append_nil _).symm

theorem params_execute (d : Draft A) (p : Step A) :
    (d.execute p).params = d.params ++ p.param?.toList := by
  cases p with
  | newParam => rfl
  | newVar | newReceiver | newExpr | newStmt | line | target => exact (List.append_nil _).symm

theorem stmts_execute (d : Draft A) (p : Step A) :
    (d.execute p).stmts = d.stmts ++ p.stmt?.toList := by
  cases p with
  | newStmt => rfl
  | newVar | newParam | newReceiver | newExpr | line | target => exact (List.append_nil _).symm

theorem receiver?_execute (d : Draft A) (p : Step A) :
    (d.execute p).receiver? = p.receiver?.or d.receiver? := by
  cases p <;> rfl

theorem vars_executeAll (d : Draft A) (ps : List (Step A)) :
    (d.executeAll ps).vars = d.vars ++ ps.filterMap Step.var? :=
  eq_append_filterMap vars_execute d ps

theorem params_executeAll (d : Draft A) (ps : List (Step A)) :
    (d.executeAll ps).params = d.params ++ ps.filterMap Step.param? :=
  eq_append_filterMap params_execute d ps

theorem stmts_executeAll (d : Draft A) (ps : List (Step A)) :
    (d.executeAll ps).stmts = d.stmts ++ ps.filterMap Step.stmt? :=
  eq_append_filterMap stmts_execute d ps

/-- The receiver is the one that was set last. -/
theorem receiver?_executeAll (d : Draft A) (ps : List (Step A)) :
    (d.executeAll ps).receiver? = (ps.filterMap Step.receiver?).getLast?.or d.receiver? := by
  induction ps using List.reverseRecOn with
  | nil => rfl
  | append_singleton ps p ih =>
    have hstep : d.executeAll (ps ++ [p]) = (d.executeAll ps).execute p := List.foldl_append
    rw [hstep, receiver?_execute, ih, List.filterMap_append, List.getLast?_append,
      ← Option.or_assoc]
    cases h : p.receiver? <;> simp [h]

/-! ## Reading objects that are kept -/

/-- What is read of an object is read of it ever after, as long as it is neither the source line nor
the target of a statement. -/
theorem bind_heap_execute {B : Type} {read : Object A → Option B} {x : B} (hp : d.Allows p)
    (hread : ∀ o : Object A, read (o.after a [p]) = read o) (h : (d.heap a).bind read = some x) :
    ((d.execute p).heap a).bind read = some x := by
  obtain ⟨o, ho, hx⟩ := Option.bind_eq_some_iff.mp h
  rw [heap_execute hp ho, Option.bind_some, hread, hx]

theorem var?_execute {x : Var × VarId} (hp : d.Allows p) (h : d.var? a = some x) :
    (d.execute p).var? a = some x :=
  bind_heap_execute hp (Object.var?_mapStmt _) h

theorem expr?_execute {e : Expr A} (hp : d.Allows p) (h : d.expr? a = some e) :
    (d.execute p).expr? a = some e :=
  bind_heap_execute hp (Object.expr?_mapStmt _ a) h

theorem stmtNumber?_execute {i : StmtId} (hp : d.Allows p) (h : d.stmtNumber? a = some i) :
    (d.execute p).stmtNumber? a = some i :=
  bind_heap_execute hp (Object.stmtNumber?_mapStmt fun _ => rfl) h

theorem targetNumber?_execute {t : Option A} {i : Option StmtId} (hp : d.Allows p)
    (h : d.targetNumber? t = some i) : (d.execute p).targetNumber? t = some i := by
  cases t with
  | none => exact h
  | some a =>
    obtain ⟨n, hn, rfl⟩ := Option.map_eq_some_iff.mp h
    exact congrArg (Option.map some) (stmtNumber?_execute hp hn)

/-- What a form stands for does not change. -/
theorem stmt?_execute {form : StmtForm A} {s : Stmt A} (hp : d.Allows p)
    (h : d.stmt? form = some s) : (d.execute p).stmt? form = some s := by
  cases form with
  | nop | ret v => exact h
  | assign r a =>
    obtain ⟨e, he, rfl⟩ := Option.map_eq_some_iff.mp h
    rw [stmt?, expr?_execute hp he]
    rfl
  | store a v =>
    obtain ⟨r, hr, rfl⟩ := Option.map_eq_some_iff.mp h
    obtain ⟨e, he, hr⟩ := Option.bind_eq_some_iff.mp hr
    rw [stmt?, expr?_execute hp he, Option.bind_some, hr]
    rfl
  | call r a =>
    obtain ⟨c, hc, rfl⟩ := Option.map_eq_some_iff.mp h
    obtain ⟨e, he, hc⟩ := Option.bind_eq_some_iff.mp hc
    rw [stmt?, expr?_execute hp he, Option.bind_some, hc]
    rfl
  | branch a t =>
    obtain ⟨c, hc, h⟩ := Option.bind_eq_some_iff.mp h
    obtain ⟨e, he, hc⟩ := Option.bind_eq_some_iff.mp hc
    obtain ⟨i, hi, rfl⟩ := Option.map_eq_some_iff.mp h
    rw [stmt?, expr?_execute hp he, targetNumber?_execute hp hi, Option.bind_some, hc]
    rfl
  | jump t =>
    obtain ⟨i, hi, rfl⟩ := Option.map_eq_some_iff.mp h
    rw [stmt?, targetNumber?_execute hp hi]
    rfl

/-! ## Well-formed drafts -/

/-- Numbers are places; the parameters are variables of the method, and so is the receiver, which
is no parameter; and everything that statements refer to is there. -/
structure WellFormed (d : Draft A) : Prop where
  vars : ∀ i a, d.vars[i]? = some a → ∃ v, d.heap a = some (.var v i)
  stmts : ∀ i a, d.stmts[i]? = some a →
    ∃ s, d.heap a = some (.stmt s) ∧ s.number = i ∧ d.Sound s.form
  params : ∀ a ∈ d.params, a ∈ d.vars
  receiver : ∀ a ∈ d.receiver?, a ∈ d.vars ∧ a ∉ d.params

variable {form : StmtForm A} {s : StmtObject A} {i : Nat} {t : Option A}

section

omit [DecidableEq A]

theorem Step.var?_of_param? (h : p.param? = some a) : p.var? = some a := by
  cases p with
  | newParam => exact h
  | newVar | newReceiver | newExpr | newStmt | line | target => cases h

theorem Step.var?_of_receiver? (h : p.receiver? = some a) :
    p.var? = some a ∧ p.param? = none := by
  cases p with
  | newReceiver => exact ⟨h, rfl⟩
  | newVar | newParam | newExpr | newStmt | line | target => cases h

/-- A variable is declared where nothing is yet. -/
theorem Allows.heap_eq_none (hp : d.Allows p) (h : p.var? = some a) : d.heap a = none := by
  cases p with
  | newVar | newParam | newReceiver =>
    cases h
    exact hp
  | newExpr | newStmt | line | target => cases h

theorem wellFormed_blank (name : String) (heap : A → Option (Object A)) :
    (blank name heap).WellFormed := by
  constructor <;> simp [blank]

/-- Choosing a target for a form chooses it for the statement that the form stands for. -/
theorem stmt?_setTarget {s : Stmt A} {n : Option StmtId} (ht : d.targetNumber? t = some n)
    (hs : d.stmt? form = some s) : d.stmt? (form.setTarget t) = some (s.setTarget n) := by
  cases form with
  | branch a u =>
    obtain ⟨c, hc, hs⟩ := Option.bind_eq_some_iff.mp hs
    obtain ⟨i, -, rfl⟩ := Option.map_eq_some_iff.mp hs
    rw [StmtForm.setTarget, stmt?, hc, ht]
    rfl
  | jump u =>
    obtain ⟨i, -, rfl⟩ := Option.map_eq_some_iff.mp hs
    rw [StmtForm.setTarget, stmt?, ht]
    rfl
  | nop | ret v =>
    cases hs
    rfl
  | assign r a | store a v | call r a =>
    obtain ⟨x, -, rfl⟩ := Option.map_eq_some_iff.mp hs
    exact hs

namespace WellFormed

theorem exists_of_mem_vars (h : d.WellFormed) (ha : a ∈ d.vars) :
    ∃ i v, d.vars[i]? = some a ∧ d.heap a = some (.var v i) := by
  obtain ⟨i, hi⟩ := List.mem_iff_getElem?.mp ha
  obtain ⟨v, hv⟩ := h.vars i a hi
  exact ⟨i, v, hi, hv⟩

theorem isSome_var? (h : d.WellFormed) (ha : a ∈ d.vars) : (d.var? a).isSome := by
  obtain ⟨i, v, -, hv⟩ := h.exists_of_mem_vars ha
  simp [var?, hv, Object.var?]

theorem not_mem_vars (h : d.WellFormed) (ha : d.heap a = none) : a ∉ d.vars := by
  intro hmem
  obtain ⟨i, v, -, hv⟩ := h.exists_of_mem_vars hmem
  rw [ha] at hv
  cases hv

theorem exists_of_mem_stmts (h : d.WellFormed) (ha : a ∈ d.stmts) :
    ∃ i s, d.stmts[i]? = some a ∧ d.heap a = some (.stmt s) ∧ s.number = i ∧ d.Sound s.form := by
  obtain ⟨i, hi⟩ := List.mem_iff_getElem?.mp ha
  obtain ⟨s, hs⟩ := h.stmts i a hi
  exact ⟨i, s, hi, hs⟩

/-- The number of a statement is its place. -/
theorem number_eq (h : d.WellFormed) (hi : d.stmts[i]? = some a)
    (hs : d.heap a = some (.stmt s)) : s.number = i := by
  obtain ⟨t, ht, hn, -⟩ := h.stmts i a hi
  obtain rfl : s = t := Object.stmt.inj (Option.some.inj (hs.symm.trans ht))
  exact hn

theorem exists_targetNumber? (h : d.WellFormed) (ht : ∀ b ∈ t, b ∈ d.stmts) :
    ∃ n, d.targetNumber? t = some n := by
  cases t with
  | none => exact ⟨none, rfl⟩
  | some b =>
    obtain ⟨i, s, -, hs, -⟩ := h.exists_of_mem_stmts (ht b rfl)
    exact ⟨some s.number, by simp [targetNumber?, stmtNumber?, hs, Object.stmtNumber?]⟩

end WellFormed

theorem Sound.setTarget (h : d.Sound form) (hd : d.WellFormed) (ht : ∀ b ∈ t, b ∈ d.stmts) :
    d.Sound (form.setTarget t) := by
  obtain ⟨⟨s, hs, hvars⟩, htarget⟩ := h
  obtain ⟨n, hn⟩ := hd.exists_targetNumber? ht
  refine ⟨⟨s.setTarget n, stmt?_setTarget hn hs, s.vars_setTarget n ▸ hvars⟩, ?_⟩
  cases form with
  | branch | jump => exact ht
  | nop | assign | store | call | ret => exact htarget

end

/-- What a step makes of a statement is sound if the statement was. -/
theorem Sound.after (h : d.Sound s.form) (hd : d.WellFormed) (hp : d.Allows p) (a : A) :
    d.Sound (s.after a [p]).form := by
  cases p with
  | target b t =>
    rw [StmtObject.after_target]
    split
    · exact h.setTarget hd hp.2.2
    · exact h
  | newVar | newParam | newReceiver | newExpr | newStmt | line => exact h

theorem Sound.execute (h : d.Sound form) (hp : d.Allows p) : (d.execute p).Sound form := by
  obtain ⟨⟨s, hs, hvars⟩, htarget⟩ := h
  refine ⟨⟨s, stmt?_execute hp hs, fun v hv => ?_⟩, fun b hb => ?_⟩
  · obtain ⟨x, hx⟩ := Option.isSome_iff_exists.mp (hvars v hv)
    exact Option.isSome_iff_exists.mpr ⟨x, var?_execute hp hx⟩
  · rw [stmts_execute]
    exact List.mem_append_left _ (htarget b hb)

private theorem getElem?_append_toList {B : Type} {l : List B} {o : Option B} {x : B}
    (h : (l ++ o.toList)[i]? = some x) : l[i]? = some x ∨ i = l.length ∧ o = some x := by
  rw [List.getElem?_append] at h
  split at h
  · exact .inl h
  · next hi =>
    cases o with
    | none => cases h
    | some y =>
      obtain ⟨hj, rfl⟩ := List.getElem?_eq_some_iff.mp h
      have hi' : i - l.length < 1 := hj
      exact .inr ⟨by omega, by simp⟩

namespace WellFormed

/-- A step keeps a draft well-formed. -/
theorem execute (h : d.WellFormed) (hp : d.Allows p) : (d.execute p).WellFormed where
  vars i a hi := by
    rw [vars_execute] at hi
    obtain hi | ⟨rfl, hnew⟩ := getElem?_append_toList hi
    · obtain ⟨v, hv⟩ := h.vars i a hi
      exact ⟨v, heap_execute hp hv⟩
    · cases p with
      | newVar b v | newParam b v | newReceiver b type =>
        cases hnew
        exact ⟨_, heap_execute_of_makes? rfl⟩
      | newExpr | newStmt | line | target => cases hnew
  stmts i a hi := by
    rw [stmts_execute] at hi
    obtain hi | ⟨rfl, hnew⟩ := getElem?_append_toList hi
    · obtain ⟨s, hs, hn, hsound⟩ := h.stmts i a hi
      exact ⟨s.after a [p], heap_execute hp hs, hn, (hsound.after h hp a).execute hp⟩
    · cases p with
      | newStmt b form =>
        cases hnew
        exact ⟨_, heap_execute_of_makes? rfl, rfl, hp.2.execute hp⟩
      | newVar | newParam | newReceiver | newExpr | line | target => cases hnew
  params a ha := by
    rw [params_execute, List.mem_append, Option.mem_toList] at ha
    rw [vars_execute, List.mem_append, Option.mem_toList]
    exact ha.imp (h.params a) Step.var?_of_param?
  receiver a ha := by
    rw [receiver?_execute, Option.mem_def, Option.or_eq_some_iff] at ha
    rw [vars_execute, params_execute, List.mem_append, List.mem_append, Option.mem_toList,
      Option.mem_toList, not_or]
    -- The parameters were there before a new receiver, and an old receiver before a new parameter.
    obtain hnew | ⟨-, hold⟩ := ha
    · obtain ⟨hvar, hparam⟩ := Step.var?_of_receiver? hnew
      have hfresh := h.not_mem_vars (hp.heap_eq_none hvar)
      exact ⟨.inr hvar, fun hmem => hfresh (h.params a hmem), by simp [hparam]⟩
    · obtain ⟨hmem, hnot⟩ := h.receiver a hold
      refine ⟨.inl hmem, hnot, fun hparam => ?_⟩
      exact h.not_mem_vars (hp.heap_eq_none (Step.var?_of_param? hparam)) hmem

/-- Steps keep a draft well-formed. -/
theorem executeAll (h : d.WellFormed) (hps : d.Takes ps) : (d.executeAll ps).WellFormed := by
  induction ps generalizing d with
  | nil => exact h
  | cons p ps ih => exact ih (h.execute hps.1) hps.2

end WellFormed

end Draft

end FlowAnalysis
