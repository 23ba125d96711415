import FlowAnalysis.Proofs.Constants.Merging

/-!
# Families of facts

Whatever is done with facts that are stored as bindings, no variable is ever bound twice or bound to
`undef`.  This is why two facts are the same exactly if their bindings are, and why a change of the
bindings is a change of the fact.

## Main definitions

- `Family.Stores` — every fact of a family is stored as bindings

## Main statements

- `Family.execute_of_not_written` — a command changes the fact that it writes, and no other
- `Family.Stores.execute`, `Family.Stores.answer_eq` — a command does to bindings what it does to
  facts
- `Family.Reached.stores` — so do all commands together, in whatever order bindings come
- `facts_stay_canonical` — what can be told from bindings that commands lead to
-/

namespace FlowAnalysis.Constants

open Registers (Command)

theorem Registers.fact_insert (rs : Registers) (r q : Int) (f : Fact) :
    Registers.fact (rs.insert r f) q = if r = q then f else rs.fact q :=
  Table.getD_insert rs r q f ∅

theorem Registers.run_append_singleton (cs : List (Method × Command)) (m : Method) (c : Command) :
    Registers.run (cs ++ [(m, c)]) = ((Registers.run cs).execute m c).registers := by
  rw [Registers.run, List.foldl_append]
  rfl

namespace Family

variable {σ : Family} {rs : Registers} {m : Method}

/-! ## What a command leaves alone -/

theorem transfer_self (m : Method) (σ : Family) (r s : Int) (stmt : Stmt VarId) :
    σ.transfer m r s stmt r = match followed? m stmt with
      | some (v, e) => ((σ s).update v (evaluate e (σ s).toFact)).1
      | none => σ s := by
  have hcopied : σ.write r (σ s) s = σ s := by
    by_cases h : s = r
    · rw [h, write_self]
    · rw [write_of_ne _ _ h]
  unfold transfer
  cases followed? m stmt with
  | none => exact write_self σ r _
  | some d => simp only [write_self, hcopied]

theorem transfer_of_ne {r q : Int} (h : q ≠ r) (s : Int) (stmt : Stmt VarId) :
    σ.transfer m r s stmt q = σ q := by
  unfold transfer
  cases followed? m stmt with
  | none => exact write_of_ne σ _ h
  | some d => exact (write_of_ne _ _ h).trans (write_of_ne σ _ h)

/-- A command changes the fact that it writes, and no other. -/
theorem execute_of_not_written {c : Command} {q : Int} (h : c.written? ≠ some q) :
    (σ.execute m c).1 q = σ q := by
  have hne : ∀ r, c.written? = some r → q ≠ r := fun r hr hq => h (hq ▸ hr)
  cases c with
  | get | compare | entries | evaluate => rfl
  | merge r s => exact merge_of_ne σ s (hne r rfl)
  | transfer r s stmt => exact transfer_of_ne (hne r rfl) s stmt
  | copyTo r s => exact write_of_ne σ _ (hne s rfl)
  | update r | remove r | assign r | clear r | copyFrom r | boundary r | initial r =>
    exact write_of_ne σ _ (hne r rfl)

/-! ## Bindings and facts in step -/

/-- A statement makes of bindings what it makes of the fact that they store. -/
theorem stores_transfer {s : Int} {f : Fact} (h : (σ s).Stores f) (m : Method) (r : Int)
    (stmt : Stmt VarId) : (σ.transfer m r s stmt r).Stores (effect m stmt f) := by
  rw [transfer_self, effect]
  cases followed? m stmt with
  | none => exact h
  | some d =>
    simp only [h.toFact_eq]
    exact h.update d.1 _

/-- Every fact of a family is stored as bindings. -/
def Stores (σ : Family) (rs : Registers) : Prop := ∀ r, (σ r).Stores (rs.fact r)

private theorem stores_foldl_nac (vs : List VarId) {es : Bindings} {f : Fact} (h : es.Stores f) :
    (vs.foldl (fun es v => (es.update v .nac).1) es).Stores
      (vs.foldl (fun f v => f.set v .nac) f) := by
  induction vs generalizing es f with
  | nil => exact h
  | cons v vs ih => exact ih (h.update v .nac)

theorem stores_boundary (m : Method) : (boundary m).Stores (Constants.boundary m) :=
  stores_foldl_nac _ .nil

namespace Stores

theorem empty : Stores (fun _ => []) ∅ := fun _ => .nil

/-- It is enough to look at the one fact that is written. -/
theorem insert (h : σ.Stores rs) {τ : Family} {r : Int} {f : Fact} (hr : (τ r).Stores f)
    (hne : ∀ q, q ≠ r → τ q = σ q) : τ.Stores (rs.insert r f) := by
  intro q
  rw [Registers.fact_insert]
  split
  · next hq => exact hq ▸ hr
  · next hq => exact hne q (fun h => hq h.symm) ▸ h q

theorem write (h : σ.Stores rs) (r : Int) {es : Bindings} {f : Fact} (hes : es.Stores f) :
    (σ.write r es).Stores (rs.insert r f) :=
  h.insert ((write_self σ r es).symm ▸ hes) fun _ hq => write_of_ne σ es hq

theorem merge (h : σ.Stores rs) (r s : Int) :
    (σ.merge r s).Stores (rs.insert r ((rs.fact s).merge (rs.fact r))) :=
  h.insert (stores_merge (h s) (h r)) fun _ hq => merge_of_ne σ s hq

theorem execute (h : σ.Stores rs) (m : Method) (c : Command) :
    (σ.execute m c).1.Stores (rs.execute m c).registers := by
  cases c with
  | update r v x => exact h.write r ((h r).update v x)
  | remove r v => exact h.write r ((h r).remove v)
  | get | compare | entries | evaluate => exact h
  | assign r es => exact h.write r (Bindings.Stores.nil.updateAll es)
  | clear r => exact h.write r .nil
  | copyTo r s => exact h.write s (h r)
  | copyFrom r s => exact h.write r (h s)
  | merge r s => exact h.merge r s
  | transfer r s stmt =>
    exact h.insert (stores_transfer (h s) m r stmt) fun q hq => transfer_of_ne hq s stmt
  | boundary r => exact h.write r (stores_boundary m)
  | initial r => exact h.write r .nil

/-- What is answered from bindings is what is answered from the facts that they store. -/
theorem answer_eq (h : σ.Stores rs) (m : Method) (c : Command) :
    (σ.execute m c).2 = (rs.execute m c).answer := by
  cases c with
  | update r v x => exact congrArg Registers.Answer.flag ((h r).update_changes_eq v x)
  | remove r v => exact congrArg Registers.Answer.flag ((h r).remove_changes_eq v)
  | get r v => exact congrArg Registers.Answer.value ((h r).get_eq v)
  | compare r s => exact congrArg Registers.Answer.equal ((h r).equals_eq (h s))
  | entries r => exact congrArg Registers.Answer.entries (h r).mergeSort_eq
  | evaluate r e =>
    have heval : evaluate e (σ r).toFact = evaluate e (rs.fact r) := by rw [(h r).toFact_eq]
    exact congrArg Registers.Answer.value heval
  | transfer r s stmt =>
    have hchanged : (!(σ r).equals (σ.transfer m r s stmt r)) =
        decide (effect m stmt (rs.fact s) ≠ rs.fact r) := by
      rw [(h r).equals_eq (stores_transfer (h s) m r stmt), ← decide_not]
      exact decide_eq_decide.mpr ne_comm
    exact congrArg Registers.Answer.flag hchanged
  | assign | clear | copyTo | copyFrom | merge | boundary | initial => rfl

end Stores

/-! ## Runs -/

namespace Reached

variable {cs : List (Method × Command)}

theorem execute (h : Reached cs σ) (m : Method) (c : Command) :
    Reached (cs ++ [(m, c)]) (σ.execute m c).1 := .step h fun _ => .refl _

/-- The bindings that commands lead to store the facts that they lead to. -/
theorem stores (h : Reached cs σ) : σ.Stores (Registers.run cs) := by
  induction h with
  | start => exact .empty
  | @step cs σ τ m c _ hτ ih =>
    rw [Registers.run_append_singleton]
    exact fun r => (ih.execute m c r).of_perm (hτ r)

end Reached

end Family

/-- Commands on facts that are stored as bindings, in whatever order the bindings come, never bind a
variable twice or to `undef`.  So two facts compare equal exactly if they say the same of all
variables, the size of a fact is the number of variables that are not `undef`, and it is empty if
there are none.  A variable is what it was set to, the others are as they were, and the answer is
whether it was something else; to remove a variable is to set it to `undef`.  A command changes no
fact but the one that it writes.  All this is as it is with the facts themselves: the bindings are
their entries, and every command gives the same answer. -/
theorem facts_stay_canonical {cs : List (Method × Command)} {σ : Family}
    (h : Family.Reached cs σ) :
    (∀ r, ((σ r).map Prod.fst).Nodup ∧ ∀ e ∈ σ r, e.2 ≠ .undef) ∧
    (∀ r s, (σ r).equals (σ s) = true ↔ ∀ v, (σ r).get v = (σ s).get v) ∧
    (∀ r, {v | (σ r).get v ≠ .undef}.encard = (σ r).size ∧
      ((σ r).isEmpty = true ↔ ∀ v, (σ r).get v = .undef)) ∧
    (∀ m r v x, (∀ w, ((σ.execute m (.update r v x)).1 r).get w =
        if v = w then x else (σ r).get w) ∧
      (σ.execute m (.update r v x)).2 = .flag (decide ((σ r).get v ≠ x))) ∧
    (∀ m r v, σ.execute m (.remove r v) = σ.execute m (.update r v .undef)) ∧
    (∀ m c r, c.written? ≠ some r → (σ.execute m c).1 r = σ r) ∧
    (∀ r, (σ r).Perm ((Registers.run cs).fact r).entries) ∧
    ∀ m c, (σ.execute m c).2 = ((Registers.run cs).execute m c).answer := by
  have hstores := h.stores
  have hcanonical : ∀ r, (σ r).Canonical := fun r => (hstores r).canonical
  refine ⟨fun r => ⟨(hcanonical r).nodup, (hcanonical r).ne_undef⟩,
    fun r s => (hcanonical r).equals_iff (hcanonical s),
    fun r => ⟨(hcanonical r).encard_eq_size, (hcanonical r).isEmpty_iff⟩, fun m r v x => ⟨?_, ?_⟩,
    fun _ _ _ => rfl, fun m c r => Family.execute_of_not_written,
    fun r => (hstores r).perm_entries, hstores.answer_eq⟩
  · have hwritten : (σ.execute m (.update r v x)).1 r = ((σ r).update v x).1 :=
      Family.write_self σ r _
    intro w
    rw [hwritten, Bindings.get_update]
  · refine congrArg Registers.Answer.flag ?_
    rw [Bool.eq_iff_iff, (hcanonical r).update_changes_iff, decide_eq_true_iff]

/-- A method with two parameters. -/
def supplied : Method where
  name := "supplied"
  vars := [⟨"p", .int⟩, ⟨"q", .int⟩]
  params := [0, 1]

/-- The same fact comes about in two ways; then a copy of it loses a variable. -/
def twoWays : List (Method × Command) :=
  [(supplied, .boundary 0), (supplied, .update 1 1 .nac), (supplied, .merge 1 0),
    (supplied, .copyTo 1 2), (supplied, .remove 2 0)]

theorem facts_stay_canonical_twoWays : ∃ σ, Family.Reached twoWays σ ∧ σ 0 ≠ σ 1 ∧
    (∀ v, (σ 0).get v = (σ 1).get v) ∧ {v | (σ 1).get v ≠ .undef}.encard = 2 ∧
    {v | (σ 2).get v ≠ .undef}.encard = 1 ∧
    (σ.execute supplied (.update 1 0 .nac)).2 = .flag false ∧
    (σ.execute supplied (.update 2 0 .nac)).1 1 = σ 1 := by
  have hcopied := (((Family.Reached.start.execute supplied (.boundary 0)).execute supplied
    (.update 1 1 .nac)).execute supplied (.merge 1 0)).execute supplied (.copyTo 1 2)
  -- The last command turns the bindings of all facts around.
  have h := hcopied.step (m := supplied) (c := .remove 2 0) fun r => List.reverse_perm _
  obtain ⟨-, hequals, hsize, hupdate, -, hframe, -⟩ := facts_stay_canonical h
  exact ⟨_, h, by decide, (hequals 0 1).mp rfl, (hsize 1).1, (hsize 2).1,
    (hupdate supplied 1 0 .nac).2, hframe supplied (.update 2 0 .nac) 1 (by decide)⟩

end FlowAnalysis.Constants
