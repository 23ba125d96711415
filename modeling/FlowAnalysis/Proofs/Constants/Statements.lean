import FlowAnalysis.Proofs.Constants.Families

/-!
# Statements

A statement is passed one fact and overwrites another, which may be the same one.  What it leaves
there is settled by the statement and by what the fact that it is passed says of each variable: it is
this fact but for one variable, and for none unless the statement defines a variable that holds an
integer.

## Main statements

- `followed?_eq_none` — the statements that leave a fact as it is
- `Family.get_transfer`, `Family.get_transfer_congr` — what a statement leaves depends on
- `Family.transfer_changes_iff`, `Family.transfer_again` — when a change is reported
- `statements_overwrite` — what a statement leaves, reports and does not touch
-/

namespace FlowAnalysis.Constants

variable {m : Method} {stmt : Stmt VarId} {x : VarId} {e : Expr VarId}

/-- Nothing is followed of a statement that does not define a variable that holds an integer. -/
theorem followed?_eq_none : followed? m stmt = none ↔
    ∀ x e, stmt.definition? = some ⟨some (.var x), e⟩ → m.holdsInt x = false := by
  constructor
  · intro h x e hd
    by_contra hx
    have hsome : followed? m stmt = some (x, e) :=
      followed?_eq_some.mpr ⟨hd, Bool.eq_true_of_not_eq_false hx⟩
    rw [h] at hsome
    cases hsome
  · intro h
    cases hs : followed? m stmt with
    | none => rfl
    | some d =>
      obtain ⟨hd, hx⟩ := followed?_eq_some.mp hs
      rw [h d.1 d.2 hd] at hx
      cases hx

namespace Family

variable {σ τ : Family} {r s q : Int}

theorem transfer_of_followed (h : followed? m stmt = some (x, e)) (σ : Family) (r s : Int) :
    σ.transfer m r s stmt r = ((σ s).update x (evaluate e (σ s).toFact)).1 := by
  rw [transfer_self, h]

theorem transfer_of_not_followed (h : followed? m stmt = none) (σ : Family) (r s : Int) :
    σ.transfer m r s stmt r = σ s := by
  rw [transfer_self, h]

theorem canonical_transfer (h : ∀ q, (σ q).Canonical) (m : Method) (r s : Int)
    (stmt : Stmt VarId) (q : Int) : (σ.transfer m r s stmt q).Canonical := by
  by_cases hq : q = r
  · exact hq ▸ (stores_transfer (h s).stores_toFact m r stmt).canonical
  · exact transfer_of_ne hq s stmt ▸ h q

/-- A statement leaves the same on bindings as on the fact that they make. -/
theorem get_transfer (h : (σ s).Canonical) (m : Method) (r : Int) (stmt : Stmt VarId) (v : VarId) :
    (σ.transfer m r s stmt r).get v = (effect m stmt (σ s).toFact).get v :=
  (stores_transfer h.stores_toFact m r stmt).get_eq v

/-- What a statement leaves depends on what is said of each variable by the fact that it is passed,
and on nothing else. -/
theorem get_transfer_congr {r' s' : Int} (h : (σ s).Canonical) (h' : (τ s').Canonical)
    (hget : ∀ v, (τ s').get v = (σ s).get v) (m : Method) (stmt : Stmt VarId) (v : VarId) :
    (τ.transfer m r' s' stmt r').get v = (σ.transfer m r s stmt r).get v := by
  have hfact : (τ s').toFact = (σ s).toFact := by
    apply Fact.ext_get
    intro w
    rw [← h'.stores_toFact.get_eq, ← h.stores_toFact.get_eq, hget]
  rw [get_transfer h', get_transfer h, hfact]

/-- A change is reported exactly if some variable was something else in the fact that is
overwritten. -/
theorem transfer_changes_iff (h : ∀ q, (σ q).Canonical) (m : Method) (r s : Int)
    (stmt : Stmt VarId) : (!(σ r).equals (σ.transfer m r s stmt r)) = true ↔
      ∃ v, (σ.transfer m r s stmt r).get v ≠ (σ r).get v := by
  rw [Bool.not_eq_true', Bool.eq_false_iff, ne_eq,
    (h r).equals_iff (canonical_transfer h m r s stmt r), not_forall]
  exact exists_congr fun v => ne_comm

/-- A statement that is passed a fact again overwrites the other one by the same again. -/
theorem transfer_again (h : s ≠ r) (σ : Family) (m : Method) (stmt : Stmt VarId) :
    (σ.transfer m r s stmt).transfer m r s stmt = σ.transfer m r s stmt := by
  funext q
  by_cases hq : q = r
  · rw [hq, transfer_self, transfer_self, transfer_of_ne h]
  · exact transfer_of_ne hq s stmt

/-- When a statement is passed a fact again, no change is reported, and there is none. -/
theorem execute_transfer_again (hσ : ∀ q, (σ q).Canonical) (h : s ≠ r) (m : Method)
    (stmt : Stmt VarId) : (σ.transfer m r s stmt).execute m (.transfer r s stmt) =
      (σ.transfer m r s stmt, .flag false) := by
  have hτ := canonical_transfer hσ m r s stmt
  refine Prod.ext (transfer_again h σ m stmt) (congrArg Registers.Answer.flag ?_)
  rw [Bool.eq_false_iff, ne_eq, transfer_changes_iff hτ, transfer_again h]
  exact fun ⟨v, hv⟩ => hv rfl

end Family

/-- A statement is passed the fact `s` and overwrites the fact `r`, which may be the same one.  What
it leaves in `r` is what `s` said of each variable before, except of a variable that holds an
integer and that the statement defines: this one has the value that its expression has on what `s`
said before, and no binding if the value is `undef`.  If the statement defines no such variable, the
bindings themselves are those of `s`.  No other fact changes, and a change is reported exactly if
some variable was something else in `r`.  What was in `r` leaves no trace: whenever a statement is
passed a fact that says the same, it leaves the same.  If `r` and `s` differ, the statement can be
passed `s` again, and then it reports no change and makes none.  All this is what the analysis does
at a node with this statement. -/
theorem statements_overwrite {σ : Family} (hσ : ∀ q, (σ q).Canonical) (m : Method)
    (stmt : Stmt VarId) (r s : Int) :
    ∃ τ changed, σ.execute m (.transfer r s stmt) = (τ, .flag changed) ∧
      (∀ q, (τ q).Canonical) ∧
      (∀ x e, stmt.definition? = some ⟨some (.var x), e⟩ → m.holdsInt x = true →
        (∀ v, (τ r).get v = if v = x then evaluate e (σ s).toFact else (σ s).get v) ∧
        (evaluate e (σ s).toFact = .undef → x ∉ (τ r).map Prod.fst)) ∧
      ((∀ x e, stmt.definition? = some ⟨some (.var x), e⟩ → m.holdsInt x = false) →
        τ r = σ s) ∧
      (changed = true ↔ ∃ v, (τ r).get v ≠ (σ r).get v) ∧
      (∀ q, q ≠ r → τ q = σ q) ∧
      (s ≠ r → τ.execute m (.transfer r s stmt) = (τ, .flag false)) ∧
      (∀ (σ' : Family) r' s', (σ' s').Canonical → (∀ v, (σ' s').get v = (σ s).get v) →
        ∀ v, ((σ'.execute m (.transfer r' s' stmt)).1 r').get v = (τ r).get v) ∧
      ∀ n, m.stmt? n = some stmt →
        ((analysis m).transfer n (σ s).toFact (σ r).toFact).fact = (τ r).toFact ∧
        ((analysis m).transfer n (σ s).toFact (σ r).toFact).changed = changed := by
  have hτ := Family.canonical_transfer hσ m r s stmt
  have hstores := Family.stores_transfer (hσ s).stores_toFact m r stmt
  refine ⟨σ.transfer m r s stmt, _, rfl, hτ, fun x e hd hx => ?_, fun hnone => ?_,
    Family.transfer_changes_iff hσ m r s stmt, fun q hq => Family.transfer_of_ne hq s stmt,
    fun hne => Family.execute_transfer_again hσ hne m stmt,
    fun σ' r' s' h' hsame => Family.get_transfer_congr (hσ s) h' hsame m stmt, fun n hn => ?_⟩
  · have hget : ∀ v, (σ.transfer m r s stmt r).get v =
        if v = x then evaluate e (σ s).toFact else (σ s).get v := by
      intro v
      rw [Family.transfer_of_followed (followed?_eq_some.mpr ⟨hd, hx⟩), Bindings.get_update]
      simp only [eq_comm]
    refine ⟨hget, fun hu => ?_⟩
    rw [(hτ r).mem_keys_iff, hget, if_pos rfl, not_not]
    exact hu
  · exact Family.transfer_of_not_followed (followed?_eq_none.mpr hnone) σ r s
  · have hstmt : (m.stmt? n).getD .nop = stmt := by rw [hn, Option.getD_some]
    have htransfer : (analysis m).transfer n (σ s).toFact (σ r).toFact =
        transfer m stmt (σ s).toFact (σ r).toFact := congrArg (transfer m · _ _) hstmt
    rw [htransfer]
    refine ⟨hstores.toFact_eq.symm, ?_⟩
    rw [(hσ r).stores_toFact.equals_eq hstores, ← decide_not]
    exact decide_eq_decide.mpr ne_comm

/-- A method with one variable that is followed and one that is not. -/
def widening : Method where
  name := "widening"
  vars := [⟨"x", .int⟩, ⟨"w", .long⟩, ⟨"y", .int⟩]

/-- Two facts that say different things of the same variable. -/
def unalike : Family := fun r =>
  if r = 0 then [(2, .nac), (0, .const 3)]
  else if r = 1 then [(0, .const 7)]
  else []

/-- Squares a variable. -/
def squaring : Stmt VarId := .assign (some 0) (.binary (.arith .mul) 0 0)

/-- A variable is defined by itself, first from another fact and then in place; and a variable is
defined that is not followed. -/
theorem statements_overwrite_unalike :
    (∀ q, (unalike q).Canonical) ∧
      (∃ τ, unalike.execute widening (.transfer 1 0 squaring) = (τ, .flag true) ∧
        (τ 1).get 0 = .const 9 ∧ (τ 1).get 2 = .nac ∧ τ 0 = unalike 0 ∧
        τ.execute widening (.transfer 1 0 squaring) = (τ, .flag false)) ∧
      (∃ τ, unalike.execute widening (.transfer 0 0 squaring) = (τ, .flag true) ∧
        (τ 0).get 0 = .const 9 ∧ (τ 0).get 2 = .nac) ∧
      ∃ τ, unalike.execute widening (.transfer 1 0 (.assign (some 1) (.var 0))) =
        (τ, .flag true) ∧ τ 1 = unalike 0 := by
  have hcanonical : ∀ q, (unalike q).Canonical := by
    intro q
    unfold unalike
    split
    · exact ⟨by decide, by decide⟩
    · split
      · exact ⟨by decide, by decide⟩
      · exact .nil
  refine ⟨hcanonical, ?_, ?_, ?_⟩
  · obtain ⟨τ, changed, hτ, -, hdefined, -, hchanged, hframe, hagain, -⟩ :=
      statements_overwrite hcanonical widening squaring 1 0
    obtain ⟨hget, -⟩ := hdefined 0 _ rfl rfl
    have hx : (τ 1).get 0 = .const 9 := hget 0
    obtain rfl : changed = true := hchanged.mpr ⟨0, by rw [hx]; decide⟩
    exact ⟨τ, hτ, hx, hget 2, hframe 0 (by decide), hagain (by decide)⟩
  · obtain ⟨τ, changed, hτ, -, hdefined, -, hchanged, -⟩ :=
      statements_overwrite hcanonical widening squaring 0 0
    obtain ⟨hget, -⟩ := hdefined 0 _ rfl rfl
    have hx : (τ 0).get 0 = .const 9 := hget 0
    obtain rfl : changed = true := hchanged.mpr ⟨0, by rw [hx]; decide⟩
    exact ⟨τ, hτ, hx, hget 2⟩
  · obtain ⟨τ, changed, hτ, -, -, hkept, hchanged, -⟩ :=
      statements_overwrite hcanonical widening (.assign (some 1) (.var 0)) 1 0
    have hsame : τ 1 = unalike 0 := hkept (by rintro x e ⟨⟩; rfl)
    obtain rfl : changed = true := hchanged.mpr ⟨0, by rw [hsame]; decide⟩
    exact ⟨τ, hτ, hsame⟩

end FlowAnalysis.Constants
