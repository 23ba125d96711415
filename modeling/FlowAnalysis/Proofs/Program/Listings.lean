import FlowAnalysis.Proofs.Program.Drafts

/-!
# Listings of drafts

The listing of a draft is written by going from object to object, and takes the numbers in it from
the objects: that of a statement for its own entry, and that of its target for a jump.  As objects
keep their numbers, these are the places of the entries; and where statements mention no variables
but those of the method, the listing is the one of the method that the draft stands for.

## Main statements

- `Draft.WellFormed.listing?_eq` — every statement of a draft can be written
- `Draft.WellFormed.listing?_eq_listing_toMethod` — the listing is the one of the method
- `Draft.numbers_are_positions` — objects keep their numbers, which are their places in the listing
-/

namespace FlowAnalysis

private theorem mapM_eq_some_filterMap {α β : Type} {f : α → Option β} {l : List α}
    (h : ∀ a ∈ l, (f a).isSome) : l.mapM f = some (l.filterMap f) := by
  induction l with
  | nil => rfl
  | cons a l ih =>
    obtain ⟨b, hb⟩ := Option.isSome_iff_exists.mp (h a List.mem_cons_self)
    rw [List.mapM_cons, List.filterMap_cons_some hb, hb,
      ih fun c hc => h c (List.mem_cons_of_mem a hc)]
    rfl

namespace Draft

variable {A : Type} {d : Draft A} {a b : A} {form : StmtForm A} {s : StmtObject A}

/-- What a form stands for jumps if the form does, and to the place of the target. -/
theorem target?_of_stmt? {stmt : Stmt A} (hstmt : d.stmt? form = some stmt) :
    stmt.hasTarget = form.hasTarget ∧ d.targetNumber? form.target? = some stmt.target? := by
  cases form with
  | branch a t =>
    obtain ⟨c, -, h⟩ := Option.bind_eq_some_iff.mp hstmt
    obtain ⟨n, hn, rfl⟩ := Option.map_eq_some_iff.mp h
    exact ⟨rfl, hn⟩
  | jump t =>
    obtain ⟨n, hn, rfl⟩ := Option.map_eq_some_iff.mp hstmt
    exact ⟨rfl, hn⟩
  | nop | ret v =>
    cases hstmt
    exact ⟨rfl, rfl⟩
  | assign r a | store a v | call r a =>
    obtain ⟨x, -, rfl⟩ := Option.map_eq_some_iff.mp hstmt
    exact ⟨rfl, rfl⟩

namespace WellFormed

/-- A statement is written with its place in front. -/
theorem listed?_eq (h : d.WellFormed) {i : StmtId} {stmt : Stmt A} (hi : d.stmts[i]? = some a)
    (hs : d.heap a = some (.stmt s)) (hstmt : d.stmt? s.form = some stmt) :
    d.listed? a = some ("  " ++ i.repr ++ lineText s.line ++ ": " ++ (stmt.map d.nameOf).text ++
      "\n") := by
  rw [listed?, hs, ← h.number_eq hi hs]
  exact congrArg (Option.map _) hstmt

/-- Every statement of a draft can be written. -/
theorem isSome_listed? (h : d.WellFormed) (ha : a ∈ d.stmts) : (d.listed? a).isSome := by
  obtain ⟨i, s, hi, hs, -, ⟨stmt, hstmt, -⟩, -⟩ := h.exists_of_mem_stmts ha
  rw [h.listed?_eq hi hs hstmt]
  rfl

theorem listing?_eq (h : d.WellFormed) :
    d.listing? = some (d.heading ++ "\n" ++ String.join (d.stmts.filterMap d.listed?)) := by
  rw [listing?, mapM_eq_some_filterMap fun a ha => h.isSome_listed? ha]
  rfl

theorem getElem?_vars_toMethod (h : d.WellFormed) (ha : a ∈ d.vars) :
    d.toMethod.vars[d.numberOf a]? = (d.var? a).map Prod.fst := by
  obtain ⟨i, v, hi, hv⟩ := h.exists_of_mem_vars ha
  have hnumber : d.numberOf a = i := by simp [numberOf, var?, hv, Object.var?]
  rw [hnumber, toMethod, getElem?_filterMap_of_isSome fun b hb => ?_, hi, Option.bind_some]
  rw [Option.isSome_map]
  exact h.isSome_var? hb

theorem nameOf_toMethod (h : d.WellFormed) (ha : a ∈ d.vars) :
    d.toMethod.nameOf (d.numberOf a) = d.nameOf a := by
  rw [Method.nameOf, h.getElem?_vars_toMethod ha, nameOf]
  cases d.var? a <;> rfl

theorem heading_toMethod (h : d.WellFormed) : d.toMethod.heading = d.heading := by
  have hparam : ∀ a ∈ d.params, (((d.toMethod.vars[d.numberOf a]?).elim "" (·.type.name)) ++ " " ++
      d.toMethod.nameOf (d.numberOf a)) = d.paramText a := by
    intro a ha
    rw [h.getElem?_vars_toMethod (h.params a ha), h.nameOf_toMethod (h.params a ha), paramText]
    cases d.var? a <;> rfl
  have hparams : d.toMethod.params.map (fun v =>
      ((d.toMethod.vars[v]?).elim "" (·.type.name)) ++ " " ++ d.toMethod.nameOf v) =
        d.params.map d.paramText := by
    rw [toMethod, List.map_map]
    exact List.map_congr_left hparam
  rw [Method.heading, heading, hparams]
  rfl

/-- A statement that mentions no variables but those of the method is written with their names. -/
theorem stmtText_toMethod (h : d.WellFormed) {stmt : Stmt A} (hvars : ∀ v ∈ stmt.vars, v ∈ d.vars) :
    d.toMethod.stmtText (stmt.map d.numberOf) = (stmt.map d.nameOf).text := by
  rw [Method.stmtText, Stmt.map_map]
  exact congrArg Stmt.text (Stmt.map_congr fun v hv => h.nameOf_toMethod (hvars v hv))

theorem filterMap_listed?_eq (h : d.WellFormed) (hclosed : d.Closed) :
    d.stmts.filterMap d.listed? =
      (d.toMethod.body.mapIdx d.toMethod.listingLine).map (· ++ "\n") := by
  refine List.ext_getElem? fun i => ?_
  have hbody : d.toMethod.body[i]? = d.stmts[i]?.bind fun a => (d.heap a).bind d.located? :=
    getElem?_filterMap_of_isSome (fun a ha => h.isSome_located? ha) i
  rw [getElem?_filterMap_of_isSome fun a ha => h.isSome_listed? ha, List.getElem?_map,
    List.getElem?_mapIdx, hbody]
  cases hi : d.stmts[i]? with
  | none => rfl
  | some a =>
    obtain ⟨s, hs, -, ⟨stmt, hstmt, -⟩, -⟩ := h.stmts i a hi
    have hvars : ∀ v ∈ stmt.vars, v ∈ d.vars := by
      intro v hv
      refine hclosed a (List.mem_of_getElem? hi) v ?_
      simpa [mentioned, hs, Option.mem_def.mp hstmt] using hv
    rw [Option.bind_some, Option.bind_some, h.listed?_eq hi hs hstmt, hs, Option.bind_some,
      located?, Option.mem_def.mp hstmt, ← h.stmtText_toMethod hvars]
    rfl

/-- If statements mention no variables but those of the method, what is written from object to
object is what is written of the method. -/
theorem listing?_eq_listing_toMethod (h : d.WellFormed) (hclosed : d.Closed) :
    d.listing? = some d.toMethod.listing := by
  rw [h.listing?_eq, h.filterMap_listed?_eq hclosed, Method.listing, Method.listingLines,
    List.map_cons, h.heading_toMethod, String.join_cons]

/-! ## Numbers -/

theorem vars_inj (h : d.WellFormed) (ha : a ∈ d.vars) (hb : b ∈ d.vars)
    (hab : d.numberOf a = d.numberOf b) : a = b := by
  obtain ⟨i, v, hi, hv⟩ := h.exists_of_mem_vars ha
  obtain ⟨j, w, hj, hw⟩ := h.exists_of_mem_vars hb
  simp only [numberOf, var?, hv, hw, Option.bind_some, Object.var?, Option.elim_some] at hab
  subst hab
  exact Option.some.inj (hi.symm.trans hj)

theorem stmts_inj (h : d.WellFormed) (ha : a ∈ d.stmts) (hb : b ∈ d.stmts)
    (hab : d.stmtNumber? a = d.stmtNumber? b) : a = b := by
  obtain ⟨i, s, hi, hs, rfl, -⟩ := h.exists_of_mem_stmts ha
  obtain ⟨j, t, hj, ht, rfl, -⟩ := h.exists_of_mem_stmts hb
  simp only [stmtNumber?, hs, ht, Option.bind_some, Object.stmtNumber?, Option.some.injEq] at hab
  rw [hab] at hi
  exact Option.some.inj (hi.symm.trans hj)

end WellFormed

variable [DecidableEq A]

namespace WellFormed

/-- The number of a statement is its place. -/
theorem stmtNumber?_eq (h : d.WellFormed) (ha : a ∈ d.stmts) :
    d.stmtNumber? a = d.stmts.idxOf? a := by
  obtain ⟨i, s, hi, hs, hn, -⟩ := h.exists_of_mem_stmts ha
  obtain ⟨hlt, hget⟩ := List.getElem?_eq_some_iff.mp hi
  -- An earlier place would be the number as well.
  have hfirst : ∀ j (hj : j < i), d.stmts[j] ≠ a := by
    intro j hj hja
    have hplace := h.number_eq (List.getElem?_eq_some_iff.mpr ⟨Nat.lt_trans hj hlt, hja⟩) hs
    omega
  rw [List.idxOf?_eq_some_iff.mpr ⟨hlt, hget, hfirst⟩, stmtNumber?, hs, ← hn]
  rfl

/-- The number that is read of a target is its place. -/
theorem targetNumber?_eq (h : d.WellFormed) {t : Option A} (ht : ∀ b ∈ t, b ∈ d.stmts) :
    d.targetNumber? t = some (t.bind d.stmts.idxOf?) := by
  cases t with
  | none => rfl
  | some b =>
    obtain ⟨n, hn⟩ := h.exists_targetNumber? ht
    rw [hn, Option.bind_some, ← h.stmtNumber?_eq (ht b rfl)]
    obtain ⟨i, hi, rfl⟩ := Option.map_eq_some_iff.mp hn
    rw [hi]

/-- A jump is written with the place of its target. -/
theorem text_of_hasTarget (h : d.WellFormed) {stmt : Stmt A} (hstmt : d.stmt? form = some stmt)
    (ht : ∀ b ∈ form.target?, b ∈ d.stmts) (hjump : form.hasTarget) :
    ∃ front, (stmt.map d.nameOf).text =
        front ++ "goto " ++ Stmt.targetText (form.target?.bind d.stmts.idxOf?) ++ ";" ∧
      (front = "" ∨ ∃ c : Condition String, front = "if (" ++ c.toExpr.text ++ ") ") := by
  obtain ⟨hhas, hnumber⟩ := target?_of_stmt? hstmt
  rw [h.targetNumber?_eq ht, Option.some.injEq, ← Stmt.target?_map d.nameOf] at hnumber
  rw [hnumber]
  exact Stmt.text_of_hasTarget (by rw [Stmt.hasTarget_map, hhas, hjump])

end WellFormed

/-- Everything that is built from a blank draft is numbered by its place, in which it stays.

The lists of the draft are what the steps have put there, in their order, and the receiver is the
one that was declared last; the number of a variable or a statement is its place, so that no two
have the same; the parameters are variables, and so is the receiver, which is none of them.  An
object is what it was made as, but for the source line and the target that were set for it since,
whether a step has made it or it was there before.  The listing has one entry for each statement,
which starts with its place, and after `goto` stands the place of the target's entry, or `?` as long
as there is none.  The draft stands for the method that is built by the same steps, whose listing is
the same if statements mention no variables of other methods. -/
theorem numbers_are_positions {name : String} {heap : A → Option (Object A)} {ps : List (Step A)}
    (h : (blank name heap).Takes ps) :
    let start := blank name heap
    let d := start.executeAll ps
    (d.vars = ps.filterMap Step.var? ∧ d.stmts = ps.filterMap Step.stmt? ∧
      d.params = ps.filterMap Step.param? ∧
      d.receiver? = (ps.filterMap Step.receiver?).getLast?) ∧
    ((∀ i a, d.vars[i]? = some a → ∃ v, d.heap a = some (.var v i)) ∧
      ∀ i a, d.stmts[i]? = some a → ∃ form line, d.heap a = some (.stmt ⟨form, i, line⟩)) ∧
    ((∀ a ∈ d.vars, ∀ b ∈ d.vars, d.numberOf a = d.numberOf b → a = b) ∧
      ∀ a ∈ d.stmts, ∀ b ∈ d.stmts, d.stmtNumber? a = d.stmtNumber? b → a = b) ∧
    ((∀ a ∈ d.params, a ∈ d.vars) ∧ ∀ a ∈ d.receiver?, a ∈ d.vars ∧ a ∉ d.params) ∧
    (∀ before p after, ps = before ++ p :: after → ∀ a o,
      (start.executeAll before).makes? p = some (a, o) → d.heap a = some (o.after a after)) ∧
    (∀ qs, d.Takes qs → ∀ a o, d.heap a = some o →
      (d.executeAll qs).heap a = some (o.after a qs)) ∧
    (∃ entries, d.listing? = some (d.heading ++ "\n" ++ String.join entries) ∧
      entries.length = d.stmts.length ∧
      ∀ (i : StmtId) a, d.stmts[i]? = some a → ∃ s stmt,
        d.heap a = some (.stmt s) ∧ d.stmt? s.form = some stmt ∧
        (∀ v ∈ stmt.vars, (d.var? v).isSome) ∧ (∀ b ∈ s.form.target?, b ∈ d.stmts) ∧
        entries[i]? = some ("  " ++ i.repr ++ lineText s.line ++ ": " ++
          (stmt.map d.nameOf).text ++ "\n") ∧
        (s.form.hasTarget → ∃ front, (stmt.map d.nameOf).text =
            front ++ "goto " ++ Stmt.targetText (s.form.target?.bind d.stmts.idxOf?) ++ ";" ∧
          (front = "" ∨ ∃ c : Condition String, front = "if (" ++ c.toExpr.text ++ ") "))) ∧
    d.toMethod = Method.build name (start.edits ps) ∧
    (d.Closed → d.listing? = some (Method.build name (start.edits ps)).listing) := by
  intro start d
  have hd : d.WellFormed := (wellFormed_blank name heap).executeAll h
  have hmethod : d.toMethod = Method.build name (start.edits ps) :=
    (wellFormed_blank name heap).toMethod_executeAll h
  refine ⟨⟨vars_executeAll start ps, stmts_executeAll start ps, params_executeAll start ps,
      (receiver?_executeAll start ps).trans Option.or_none⟩, ⟨hd.vars, fun i a hi => ?_⟩,
    ⟨fun a ha b hb => hd.vars_inj ha hb, fun a ha b hb => hd.stmts_inj ha hb⟩,
    ⟨hd.params, hd.receiver⟩, ?_, fun qs hqs a o => heap_executeAll hqs,
    ⟨d.stmts.filterMap d.listed?, hd.listing?_eq, ?_, fun i a hi => ?_⟩, hmethod, fun hclosed => ?_⟩
  · obtain ⟨s, hs, rfl, -⟩ := hd.stmts i a hi
    exact ⟨s.form, s.line, hs⟩
  · rintro before p after rfl a o hmakes
    exact heap_executeAll_of_makes? h hmakes
  · exact List.filterMap_length_eq_length.mpr fun a ha => hd.isSome_listed? ha
  · obtain ⟨s, hs, -, ⟨stmt, hstmt, hvars⟩, htarget⟩ := hd.stmts i a hi
    refine ⟨s, stmt, hs, hstmt, hvars, htarget, ?_, hd.text_of_hasTarget hstmt htarget⟩
    rw [getElem?_filterMap_of_isSome fun a ha => hd.isSome_listed? ha, hi, Option.bind_some,
      hd.listed?_eq hi hs hstmt]
  · rw [← hmethod]
    exact hd.listing?_eq_listing_toMethod hclosed

/-- A branch gets its target when there is one, a line is set late, and the receiver is replaced. -/
def patched : List (Step Nat) :=
  [.newReceiver 1 (.reference "Foo"), .newParam 2 ⟨"p", .int⟩, .newVar 3 ⟨"x", .int⟩,
    .newExpr 4 (.expr (.binary (.cond .ge) 2 3)), .newStmt 5 (.branch 4 none),
    .newParam 6 ⟨"q", .long⟩, .newExpr 7 (.expr (.neg 2)), .newStmt 8 (.assign (some 3) 7),
    .newStmt 10 (.jump (some 5)), .newStmt 11 (.ret (some 3)), .line 8 4, .target 5 (some 11),
    .newReceiver 12 (.reference "Bar")]

/-- A variable of another method. -/
def elsewhere (a : Nat) : Option (Object Nat) := if a = 9 then some (.var ⟨"x", .int⟩ 2) else none

theorem numbers_are_positions_patched :
    let start := blank "walk" elsewhere
    let d := start.executeAll patched
    start.Takes patched ∧ d.params = [2, 6] ∧ d.receiver? = some 12 ∧ 12 ∉ d.params ∧
      (∃ v, d.heap 6 = some (.var v 3)) ∧ d.heap 9 = some (.var ⟨"x", .int⟩ 2) ∧
      d.heap 5 = some (.stmt ⟨.branch 4 (some 11), 0, -1⟩) ∧
      d.listing? = some ("walk(int p, long q)\n" ++ "  0: if (p >= x) goto 3;\n" ++
        "  1@L4: x = -p;\n" ++ "  2: goto 0;\n" ++ "  3: return x;\n") := by
  intro start d
  have h : start.Takes patched := by decide
  obtain ⟨-, -, -, -, -, hkept, -⟩ :=
    numbers_are_positions (show (blank "walk" elsewhere).Takes [] from trivial)
  obtain ⟨⟨hvars, -, hparams, hreceiver⟩, ⟨hnumber, -⟩, -, ⟨-, hnot⟩, hmade, -, -, -, hlisting⟩ :=
    numbers_are_positions h
  have hbranch := hmade (patched.take 4) (.newStmt 5 (.branch 4 none)) (patched.drop 5) rfl 5 _ rfl
  refine ⟨h, hparams, hreceiver, (hnot 12 hreceiver).2, hnumber 3 6 ?_,
    hkept patched h 9 _ rfl, hbranch, ?_⟩
  · rw [hvars]
    rfl
  · rw [hlisting (by decide)]
    decide

end Draft

end FlowAnalysis
