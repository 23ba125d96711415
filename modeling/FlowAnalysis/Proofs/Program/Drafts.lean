import FlowAnalysis.Proofs.Program.Objects
import Mathlib.Data.List.Basic

/-!
# Drafts and methods

A draft stands for a method, in which everything has its place for a name.  What a step does to the
objects is what it does to the method: a new variable or statement comes last, and a change to a
statement is a change at its place.

## Main statements

- `Draft.WellFormed.toMethod_execute` — what one step does to the method
- `Draft.WellFormed.toMethod_executeAll` — the method that a draft stands for is built step by step
-/

namespace FlowAnalysis

/-- A list of which every element is read keeps the places. -/
theorem getElem?_filterMap_of_isSome {α β : Type} {f : α → Option β} {l : List α}
    (h : ∀ a ∈ l, (f a).isSome) (i : Nat) : (l.filterMap f)[i]? = l[i]?.bind f := by
  induction l generalizing i with
  | nil => rfl
  | cons a l ih =>
    obtain ⟨b, hb⟩ := Option.isSome_iff_exists.mp (h a List.mem_cons_self)
    rw [List.filterMap_cons_some hb]
    cases i with
    | zero => exact hb.symm
    | succ i => exact ih (fun c hc => h c (List.mem_cons_of_mem a hc)) i

/-- One element is changed, if only one is read in another way. -/
private theorem filterMap_eq_modify {α β : Type} {f g : α → Option β} {l : List α} {i : Nat}
    {k : β → β} (hf : ∀ a ∈ l, (f a).isSome)
    (hg : ∀ j a, l[j]? = some a → g a = if i = j then (f a).map k else f a) :
    l.filterMap g = (l.filterMap f).modify i k := by
  have hg' : ∀ a ∈ l, (g a).isSome := by
    intro a ha
    obtain ⟨j, hj⟩ := List.mem_iff_getElem?.mp ha
    rw [hg j a hj]
    split <;> simp [hf a ha]
  refine List.ext_getElem? fun j => ?_
  rw [getElem?_filterMap_of_isSome hg', List.getElem?_modify, getElem?_filterMap_of_isSome hf]
  cases h : l[j]? with
  | none => rfl
  | some a =>
    rw [Option.bind_some, Option.bind_some, hg j a h]
    split <;> cases f a <;> rfl

namespace Draft

variable {A : Type} {d : Draft A} {p : Step A} {ps : List (Step A)} {a b : A} {form : StmtForm A}
  {s : StmtObject A}

namespace WellFormed

theorem length_vars_toMethod (h : d.WellFormed) : d.toMethod.vars.length = d.vars.length := by
  refine List.filterMap_length_eq_length.mpr fun a ha => ?_
  rw [Option.isSome_map]
  exact h.isSome_var? ha

theorem isSome_located? (h : d.WellFormed) (ha : a ∈ d.stmts) :
    ((d.heap a).bind d.located?).isSome := by
  obtain ⟨i, s, -, hs, -, ⟨stmt, hstmt, -⟩, -⟩ := h.exists_of_mem_stmts ha
  rw [hs, Option.bind_some, located?, Option.mem_def.mp hstmt]
  rfl

end WellFormed

variable [DecidableEq A]

/-! ## What a step adds and keeps -/

theorem name_toMethod_execute (d : Draft A) (p : Step A) :
    (d.execute p).toMethod.name = d.toMethod.name := by
  cases p <;> rfl

theorem var?_execute_of_isSome (hp : d.Allows p) (ha : (d.var? a).isSome) :
    (d.execute p).var? a = d.var? a := by
  obtain ⟨x, hx⟩ := Option.isSome_iff_exists.mp ha
  rw [var?_execute hp hx, hx]

theorem numberOf_execute (hp : d.Allows p) (ha : (d.var? a).isSome) :
    (d.execute p).numberOf a = d.numberOf a := by
  rw [numberOf, var?_execute_of_isSome hp ha, numberOf]

/-- What a sound statement is in the method does not change. -/
theorem located?_execute (hp : d.Allows p) (hs : d.Sound s.form) :
    (d.execute p).located? (.stmt s) = d.located? (.stmt s) := by
  obtain ⟨⟨stmt, hstmt, hvars⟩, -⟩ := hs
  have hmap : stmt.map (d.execute p).numberOf = stmt.map d.numberOf :=
    Stmt.map_congr fun v hv => numberOf_execute hp (hvars v hv)
  rw [located?, located?, stmt?_execute hp hstmt, hstmt, Option.map_some, Option.map_some, hmap]

/-- A step that makes an object changes no statement of the method. -/
theorem body_of_makes? (hmakes : (d.makes? p).isSome) :
    (d.stmts.filterMap fun a => (d.heap a).bind fun o => d.located? (o.after a [p])) =
      d.toMethod.body := by
  simp only [after_of_makes? hmakes, toMethod]

namespace WellFormed

/-- What is in the method after a step for a statement that was there before. -/
theorem located?_execute (h : d.WellFormed) (hp : d.Allows p) (ha : a ∈ d.stmts) :
    ((d.execute p).heap a).bind (d.execute p).located? =
      (d.heap a).bind fun o => d.located? (o.after a [p]) := by
  obtain ⟨i, s, -, hs, -, hsound⟩ := h.exists_of_mem_stmts ha
  rw [heap_execute hp hs, hs]
  exact Draft.located?_execute hp (hsound.after h hp a)

theorem vars_toMethod_execute (h : d.WellFormed) (hp : d.Allows p) :
    (d.execute p).toMethod.vars = d.toMethod.vars ++
      p.var?.toList.filterMap fun a => ((d.execute p).var? a).map Prod.fst := by
  have hkept : ∀ a ∈ d.vars, ((d.execute p).var? a).map Prod.fst = (d.var? a).map Prod.fst :=
    fun a ha => by rw [var?_execute_of_isSome hp (h.isSome_var? ha)]
  simp only [toMethod, Draft.vars_execute, List.filterMap_append, List.filterMap_congr hkept]

theorem params_toMethod_execute (h : d.WellFormed) (hp : d.Allows p) :
    (d.execute p).toMethod.params =
      d.toMethod.params ++ p.param?.toList.map (d.execute p).numberOf := by
  have hkept : ∀ a ∈ d.params, (d.execute p).numberOf a = d.numberOf a :=
    fun a ha => numberOf_execute hp (h.isSome_var? (h.params a ha))
  simp only [toMethod, Draft.params_execute, List.map_append, List.map_congr_left hkept]

theorem receiver?_toMethod_execute (h : d.WellFormed) (hp : d.Allows p) :
    (d.execute p).toMethod.receiver? =
      (p.receiver?.map (d.execute p).numberOf).or d.toMethod.receiver? := by
  have hkept : d.receiver?.map (d.execute p).numberOf = d.receiver?.map d.numberOf := by
    cases hr : d.receiver? with
    | none => rfl
    | some a =>
      exact congrArg some (numberOf_execute hp (h.isSome_var? (h.receiver a hr).1))
  simp only [toMethod, Draft.receiver?_execute, Option.map_or, hkept]

theorem body_toMethod_execute (h : d.WellFormed) (hp : d.Allows p) :
    (d.execute p).toMethod.body =
      (d.stmts.filterMap fun a => (d.heap a).bind fun o => d.located? (o.after a [p])) ++
        p.stmt?.toList.filterMap fun a =>
          ((d.execute p).heap a).bind (d.execute p).located? := by
  simp only [toMethod, stmts_execute, List.filterMap_append,
    List.filterMap_congr fun a ha => h.located?_execute hp ha]

/-! ## The method after a step -/

/-- A step that declares nothing changes no more than the statements of the method. -/
theorem toMethod_of_var?_eq_none (h : d.WellFormed) (hp : d.Allows p) (hvar : p.var? = none) :
    (d.execute p).toMethod = { d.toMethod with body := (d.execute p).toMethod.body } := by
  have hparam : p.param? = none := Option.eq_none_iff_forall_ne_some.mpr fun a ha => by
    cases hvar.symm.trans (Step.var?_of_param? ha)
  have hreceiver : p.receiver? = none := Option.eq_none_iff_forall_ne_some.mpr fun a ha => by
    cases hvar.symm.trans (Step.var?_of_receiver? ha).1
  refine Method.ext (name_toMethod_execute d p) ?_ ?_ ?_ rfl
  · rw [h.vars_toMethod_execute hp, hvar]
    exact List.append_nil _
  · rw [h.params_toMethod_execute hp, hparam]
    exact List.append_nil _
  · rw [h.receiver?_toMethod_execute hp, hreceiver]
    rfl

/-- A step that changes an object changes one statement of the method. -/
theorem toMethod_of_changes (h : d.WellFormed) (hp : d.Allows p) {i : StmtId}
    {f : StmtObject A → StmtObject A} {k : Located → Located} (hi : d.stmts[i]? = some a)
    (hmakes : d.makes? p = none)
    (hafter : ∀ b, StmtObject.after b [p] = if b = a then f else id)
    (hk : ∀ s, d.Sound s.form → d.located? (.stmt (f s)) = (d.located? (.stmt s)).map k) :
    (d.execute p).toMethod = { d.toMethod with body := d.toMethod.body.modify i k } := by
  have hnew : p.var? = none ∧ p.stmt? = none := by
    cases p with
    | line | target => exact ⟨rfl, rfl⟩
    | newVar | newParam | newReceiver | newExpr | newStmt => cases hmakes
  obtain ⟨hvar, hstmt⟩ := hnew
  have hbody : (d.execute p).toMethod.body = d.toMethod.body.modify i k := by
    rw [h.body_toMethod_execute hp, hstmt]
    refine (List.append_nil _).trans ?_
    refine filterMap_eq_modify (fun b hb => h.isSome_located? hb) fun j b hj => ?_
    obtain ⟨s, hs, hn, hsound⟩ := h.stmts j b hj
    rw [hs, Option.bind_some, Option.bind_some, Object.after, hafter]
    -- No other place has the number of `a`, and no other statement its place.
    by_cases hb : b = a
    · subst hb
      rw [if_pos rfl, if_pos ((h.number_eq hi hs).symm.trans hn)]
      exact hk s hsound
    · have hij : i ≠ j := by
        rintro rfl
        exact hb (Option.some.inj (hj.symm.trans hi))
      rw [if_neg hb, if_neg hij, Object.mapStmt_id, id]
  rw [h.toMethod_of_var?_eq_none hp hvar, hbody]

/-- A step that declares a variable declares it in the method. -/
theorem toMethod_of_declares {v : Var} (h : d.WellFormed) (hp : d.Allows p) (hvar : p.var? = some a)
    (hmakes : d.makes? p = some (a, .var v d.vars.length)) :
    (d.execute p).toMethod =
      { d.toMethod.addVar v with
        params := d.toMethod.params ++ p.param?.toList.map fun _ => d.toMethod.vars.length
        receiver? :=
          (p.receiver?.map fun _ => d.toMethod.vars.length).or d.toMethod.receiver? } := by
  have hnew : (d.execute p).var? a = some (v, d.vars.length) := by
    rw [var?, heap_execute_of_makes? hmakes]
    rfl
  have hnumber : ∀ b, p.var? = some b → (d.execute p).numberOf b = d.toMethod.vars.length := by
    intro b hb
    obtain rfl : a = b := Option.some.inj (hvar.symm.trans hb)
    rw [numberOf, hnew, h.length_vars_toMethod]
    rfl
  have hstmt : p.stmt? = none := by
    cases p with
    | newStmt => cases hvar
    | newVar | newParam | newReceiver | newExpr | line | target => rfl
  refine Method.ext (name_toMethod_execute d p) ?_ ?_ ?_ ?_
  · rw [h.vars_toMethod_execute hp, hvar]
    simp [hnew, Method.addVar]
  · rw [h.params_toMethod_execute hp]
    refine congrArg _ (List.map_congr_left fun b hb => hnumber b ?_)
    exact Step.var?_of_param? (Option.mem_toList.mp hb)
  · rw [h.receiver?_toMethod_execute hp]
    cases hr : p.receiver? with
    | none => rfl
    | some b => exact congrArg some (hnumber b (Step.var?_of_receiver? hr).1)
  · rw [h.body_toMethod_execute hp, body_of_makes? (by rw [hmakes]; rfl), hstmt]
    exact List.append_nil _

/-- A step that makes an expression does nothing to the method. -/
theorem toMethod_of_newExpr {o : Object A} (h : d.WellFormed) (hp : d.Allows (.newExpr a o)) :
    (d.execute (.newExpr a o)).toMethod = d.toMethod := by
  rw [h.toMethod_of_var?_eq_none hp rfl, h.body_toMethod_execute hp, body_of_makes? rfl]
  exact congrArg (fun body => { d.toMethod with body }) (List.append_nil _)

/-- A step that makes a statement appends it to the method. -/
theorem toMethod_of_newStmt {stmt : Stmt A} (h : d.WellFormed) (hp : d.Allows (.newStmt a form))
    (hstmt : d.stmt? form = some stmt) :
    (d.execute (.newStmt a form)).toMethod = d.toMethod.addStmt ⟨stmt.map d.numberOf, -1⟩ := by
  have hnew : ((d.execute (.newStmt a form)).heap a).bind (d.execute (.newStmt a form)).located? =
      some ⟨stmt.map d.numberOf, -1⟩ := by
    rw [heap_execute_of_makes? (d := d) (p := .newStmt a form) rfl, Option.bind_some,
      Draft.located?_execute hp hp.2, located?, hstmt]
    rfl
  rw [h.toMethod_of_var?_eq_none hp rfl, h.body_toMethod_execute hp, body_of_makes? rfl]
  refine congrArg (fun body => { d.toMethod with body }) (congrArg _ ?_)
  exact List.filterMap_cons_some hnew

/-- What a step does to the objects is what it does to the method. -/
theorem toMethod_execute (h : d.WellFormed) (hp : d.Allows p) :
    (d.execute p).toMethod = (d.edit? p).elim d.toMethod d.toMethod.edit := by
  cases p with
  | newVar a v =>
    rw [h.toMethod_of_declares hp rfl rfl]
    simp [Step.param?, Step.receiver?, edit?, Method.edit, Method.addVar]
  | newParam a v => exact h.toMethod_of_declares hp rfl rfl
  | newReceiver a type =>
    rw [h.toMethod_of_declares hp rfl rfl]
    simp [Step.param?, Step.receiver?, edit?, Method.edit, Method.addVar, Method.setReceiver]
  | newExpr a o => exact h.toMethod_of_newExpr hp
  | newStmt a form =>
    obtain ⟨⟨stmt, hstmt, -⟩, -⟩ := hp.2
    rw [h.toMethod_of_newStmt hp hstmt, edit?, Option.mem_def.mp hstmt]
    rfl
  | line a l =>
    obtain ⟨i, s, hi, hs, hn, -⟩ := h.exists_of_mem_stmts hp
    have hedit : d.edit? (.line a l) = some (.line i l) := by
      simp [edit?, stmtNumber?, hs, Object.stmtNumber?, hn]
    rw [hedit]
    refine h.toMethod_of_changes hp hi rfl (fun b => StmtObject.after_line b a l) fun s _ => ?_
    simp [located?, Function.comp_def]
  | target a t =>
    obtain ⟨i, s, hi, hs, hn, -⟩ := h.exists_of_mem_stmts hp.1
    obtain ⟨n, ht⟩ := h.exists_targetNumber? hp.2.2
    have hedit : d.edit? (.target a t) = some (.target i n) := by
      simp [edit?, stmtNumber?, hs, Object.stmtNumber?, hn, ht]
    rw [hedit]
    refine h.toMethod_of_changes hp hi rfl (fun b => StmtObject.after_target b a t) fun s hs => ?_
    obtain ⟨⟨stmt, hstmt, -⟩, -⟩ := hs
    simp [located?, Option.mem_def.mp hstmt, stmt?_setTarget ht hstmt]

/-- The method that a draft stands for is built step by step. -/
theorem toMethod_executeAll (h : d.WellFormed) (hps : d.Takes ps) :
    (d.executeAll ps).toMethod = (d.edits ps).foldl Method.edit d.toMethod := by
  induction ps generalizing d with
  | nil => rfl
  | cons p ps ih =>
    have hstep : d.executeAll (p :: ps) = (d.execute p).executeAll ps := rfl
    rw [hstep, ih (h.execute hps.1) hps.2, h.toMethod_execute hps.1, edits, List.foldl_append]
    cases d.edit? p <;> rfl

end WellFormed

end Draft

end FlowAnalysis
