import FlowAnalysis.Proofs.Constants.Transfer
import FlowAnalysis.Proofs.Constants.Words

/-!
# Soundness of constant propagation

Runs of a method along its graph, on stores that assign words to variables.  Whatever the
analysis finds describes all stores with which a run comes to a node or leaves it.

The runs of a method are among the runs here.  What a statement does beyond the variables that hold
integers is left open: other variables may change to anything, and only a definition of a variable
that holds an integer stops a run, by reading a variable without a word or dividing by zero.

## Main definitions

- `Yields`, `Executes` — what an expression may come to, and what a statement may do
- `Arrives` — a run comes to a node with a store
- `Describes` — a fact allows a store

## Main statements

- `describes_effect` — passing a fact through a statement keeps up with executing it
- `facts_describe_runs` — what is found describes every run
-/

namespace FlowAnalysis.Constants

/-- The words that are assigned to variables; a variable may be without one. -/
abbrev Store := VarId → Option Int32

/-! ## Execution -/

/-- What an expression may come to.  There is nothing if it reads a variable without a word or
divides by zero.  Calls, fields and wide literals may come to anything. -/
inductive Yields (σ : Store) : Expr VarId → Int32 → Prop
  | var {v : VarId} {c : Int32} : σ v = some c → Yields σ (.var v) c
  | int (c : Int32) : Yields σ (.int c) c
  | long (l : Int64) (c : Int32) : Yields σ (.long l) c
  | binary {op : BinaryOp} {a b : VarId} {x y c : Int32} : σ a = some x → σ b = some y →
      ¬ (op.isDivision = true ∧ y = 0) → op.Computes x y c → Yields σ (.binary op a b) c
  | neg {a : VarId} {x : Int32} : σ a = some x → Yields σ (.neg a) (.ofInt (-x.toInt))
  | cast (type : Ty) {a : VarId} {c : Int32} : σ a = some c → Yields σ (.cast type a) c
  | invoke (call : Call VarId) (c : Int32) : Yields σ (.invoke call) c
  | field (ref : FieldRef VarId) (c : Int32) : Yields σ (.field ref) c

/-- What a statement may do to a store. -/
inductive Executes (m : Method) (s : Stmt VarId) (σ : Store) : Store → Prop
  /-- A variable that holds an integer is assigned what the expression comes to. -/
  | assign {v : VarId} {e : Expr VarId} {c : Int32} :
      s.definition? = some ⟨some (.var v), e⟩ → m.holdsInt v = true → Yields σ e c →
      Executes m s σ (Function.update σ v (some c))
  /-- Any other variable may become anything. -/
  | other {v : VarId} {e : Expr VarId} (x : Option Int32) :
      s.definition? = some ⟨some (.var v), e⟩ → m.holdsInt v = false →
      Executes m s σ (Function.update σ v x)
  /-- What defines no variable changes none. -/
  | keep : (∀ v e, s.definition? ≠ some ⟨some (.var v), e⟩) → Executes m s σ σ

/-- The variables whose words an expression is computed from. -/
def operands : Expr VarId → List VarId
  | .var v => [v]
  | .binary _ a b => [a, b]
  | .neg a => [a]
  | .cast _ a => [a]
  | .int _ | .long _ | .invoke _ | .field _ => []

/-- A statement computes integers from integers only. -/
def ReadsInts (m : Method) (s : Stmt VarId) : Prop :=
  ∀ v e, s.definition? = some ⟨some (.var v), e⟩ → m.holdsInt v = true →
    ∀ w ∈ operands e, m.holdsInt w = true

/-- The stores that a method may be called with: of the variables that hold integers, the receiver
and the parameters have a word, and no others. -/
def Initial (m : Method) (σ : Store) : Prop :=
  ∀ v, m.holdsInt v = true → ((σ v).isSome ↔ m.receiver? = some v ∨ v ∈ m.params)

/-- A run from the entry comes to a node with a store.  It may go on along any edge. -/
inductive Arrives (m : Method) (g : Graph StmtId) : StmtId → Store → Prop
  | enter {n : StmtId} {σ : Store} : g.entry? = some n → Initial m σ → Arrives m g n σ
  | follow {n : StmtId} {σ σ' : Store} {e : Edge StmtId} : Arrives m g n σ →
      Executes m (stmtAt m n) σ σ' → e ∈ g.outEdges n → Arrives m g e.target σ'

/-! ## Description -/

/-- A fact allows for the words of all variables that hold integers. -/
def Describes (m : Method) (f : Fact) (σ : Store) : Prop :=
  ∀ v c, m.holdsInt v = true → σ v = some c → f.get v = .nac ∨ f.get v = .const c

variable {m : Method} {f f' : Fact} {σ σ' : Store}

theorem Describes.mono (h : Describes m f σ) (hle : f ≤ f') : Describes m f' σ := by
  intro v c hv hc
  have hget : f.get v ≤ f'.get v := hle v
  cases h v c hv hc with
  | inl hnac => exact .inl (Value.eq_nac_of_le (hnac ▸ hget))
  | inr hconst =>
    rw [hconst, Value.le_iff] at hget
    simpa [eq_comm] using hget

/-- The result of an operator is described if the operands are. -/
theorem evaluateBinary_describes {op : BinaryOp} {x y : Value} {a b c : Int32}
    (hx : x = .nac ∨ x = .const a) (hy : y = .nac ∨ y = .const b)
    (hd : ¬ (op.isDivision = true ∧ b = 0)) (hc : op.Computes a b c) :
    evaluateBinary op x y = .nac ∨ evaluateBinary op x y = .const c := by
  -- The divisor is not taken for zero, since it is described and is not zero.
  have hz : ¬ dividesByZero op y = true := by
    intro hz
    obtain ⟨hop, rfl⟩ : op.isDivision = true ∧ y = .const 0 := by simpa [dividesByZero] using hz
    have hb : b = 0 := by simpa [eq_comm] using hy
    exact hd ⟨hop, hb⟩
  rw [evaluateBinary_eq, if_neg hz]
  obtain rfl | rfl := hx
  · exact .inl rfl
  · obtain rfl | rfl := hy
    · exact .inl rfl
    · cases hfold : op.fold? a b with
      | none => exact .inl (by simp [combine, hfold])
      | some d =>
        have hdc : d = c := BinaryOp.eq_of_computes hc hfold
        exact .inr (by simp [combine, hfold, hdc])

theorem evaluate_describes {e : Expr VarId} {c : Int32} (h : Describes m f σ)
    (hread : ∀ w ∈ operands e, m.holdsInt w = true) (hc : Yields σ e c) :
    evaluate e f = .nac ∨ evaluate e f = .const c := by
  cases hc with
  | var hv => exact h _ _ (hread _ (by simp [operands])) hv
  | int => exact .inr rfl
  | long => exact .inl rfl
  | binary ha hb hd hc =>
    have hx := h _ _ (hread _ (by simp [operands])) ha
    have hy := h _ _ (hread _ (by simp [operands])) hb
    exact evaluateBinary_describes hx hy hd hc
  | neg ha =>
    next a x =>
    have hneg : Int32.ofInt (-x.toInt) = -x := by
      rw [← Int32.toInt_inj, Int32.toInt_ofInt, Int32.toInt_neg]
    show negate (f.get a) = .nac ∨ negate (f.get a) = .const _
    rw [hneg]
    cases h _ _ (hread _ (by simp [operands])) ha with
    | inl hnac => exact .inl (by rw [hnac]; rfl)
    | inr hconst => exact .inr (by rw [hconst]; rfl)
  | cast type ha => exact h _ _ (hread _ (by simp [operands])) ha
  | invoke => exact .inl rfl
  | field => exact .inl rfl

/-- What a statement makes of a fact describes what it makes of a store. -/
theorem describes_effect {s : Stmt VarId} (h : Describes m f σ) (hread : ReadsInts m s)
    (hs : Executes m s σ σ') : Describes m (effect m s f) σ' := by
  cases hs with
  | assign hdef hint hc =>
    next v e c =>
    rw [effect_of_followed (followed?_eq_some.mpr ⟨hdef, hint⟩)]
    intro w d hw hd
    rw [Fact.get_set]
    by_cases hvw : v = w
    · subst hvw
      obtain rfl : c = d := by simpa using hd
      rw [if_pos rfl]
      exact evaluate_describes h (hread _ _ hdef hint) hc
    · rw [if_neg hvw]
      rw [Function.update_of_ne (Ne.symm hvw)] at hd
      exact h w d hw hd
  | other x hdef hint =>
    next v e =>
    have hnone : followed? m s = none := by simp [followed?, hdef, hint]
    rw [effect_of_not_followed hnone]
    intro w d hw hd
    have hwv : w ≠ v := by
      rintro rfl
      rw [hint] at hw
      cases hw
    rw [Function.update_of_ne hwv] at hd
    exact h w d hw hd
  | keep hdef =>
    have hnone : followed? m s = none := by
      cases hf : followed? m s with
      | none => rfl
      | some d => exact absurd (followed?_eq_some.mp hf).1 (hdef d.1 d.2)
    rwa [effect_of_not_followed hnone]

theorem describes_boundary (h : Initial m σ) : Describes m (boundary m) σ := by
  intro v c hv hc
  have hmem : v ∈ suppliedVars m :=
    mem_suppliedVars.mpr ⟨(h v hv).mp (by simp [hc]), hv⟩
  exact .inl (by rw [get_boundary, if_pos hmem])

/-! ## Runs -/

theorem Arrives.mem_nodes {g : Graph StmtId} {n : StmtId} (h : Arrives m g n σ) : n ∈ g.nodes := by
  cases h with
  | enter he _ => exact g.entry_mem n he
  | follow _ _ he => exact g.target_mem _ (Graph.mem_outEdges.mp he).1

/-- Facts that solve the equations describe every store with which a run comes to a node. -/
theorem Arrives.describes {g : Graph StmtId} {o : Options} {r : Solution StmtId Fact}
    (hr : (problem m g o).Solves (fun n => effect m (stmtAt m n)) r) {entry : StmtId}
    (hentry : g.entry? = some entry) (hin : g.inEdges entry = [])
    (hread : ∀ n ∈ g.nodes, ReadsInts m (stmtAt m n)) {n : StmtId} (h : Arrives m g n σ) :
    Describes m ((problem m g o).incoming r n) σ := by
  induction h with
  | @enter n σ he hσ =>
    obtain ⟨heq, -⟩ := hr n (g.entry_mem n he)
    have hs : (problem m g o).start? = some n := he
    rw [Problem.inflow, if_pos hs] at heq
    rw [← Option.some.inj heq]
    exact describes_boundary hσ
  | @follow n σ σ' e hn hexec he ih =>
    have hmem : n ∈ g.nodes := hn.mem_nodes
    obtain ⟨hedge, hsource⟩ := Graph.mem_outEdges.mp he
    -- No run comes back to the entry, so what the edge carries is merged in.
    have harr : e ∈ g.inEdges e.target := Graph.mem_inEdges.mpr ⟨hedge, rfl⟩
    have hstart : (problem m g o).start? ≠ some e.target := by
      intro hs
      have htarget : entry = e.target := Option.some.inj (hentry.symm.trans hs)
      rw [← htarget, hin] at harr
      cases harr
    obtain ⟨x, hx, hle⟩ := Problem.exists_carried_le_inflow (fun _ _ => rfl) hstart harr
      (hr e.target (g.target_mem e hedge)).1
    obtain rfl : (problem m g o).outgoing r n = x := by
      rw [← hsource]
      exact Option.some.inj hx
    rw [(hr n hmem).2] at hle
    exact (describes_effect ih (hread n hmem) hexec).mono hle

/-- Let the entry of a graph have no edge to it, and let integers be computed from integers only.
Then the facts that are found before and after a node describe every store with which a run comes to
the node, and every store with which it goes on. -/
theorem facts_describe_runs {g : Graph StmtId} (o : Options) {entry : StmtId}
    (hentry : g.entry? = some entry) (hin : g.inEdges entry = [])
    (hread : ∀ n ∈ g.nodes, ReadsInts m (stmtAt m n)) {limit : Nat} {t : State StmtId Fact}
    (ht : (problem m g o).solve limit = .solved t) {n : StmtId} (h : Arrives m g n σ) :
    ∃ before after, ((problem m g o).solution t).before.get? n = some before ∧
      ((problem m g o).solution t).after.get? n = some after ∧
      Describes m before σ ∧
      ∀ σ', Executes m (stmtAt m n) σ σ' → Describes m after σ' := by
  have hr := Problem.solves_of_solve_eq_solved (overwrites m) ht
  have hn : n ∈ g.nodes := h.mem_nodes
  have hbefore : Describes m ((problem m g o).factAt t.inputs n) σ :=
    h.describes hr hentry hin hread
  have hout : (problem m g o).factAt t.outputs n =
      effect m (stmtAt m n) ((problem m g o).factAt t.inputs n) := (hr n hn).2
  obtain ⟨hkeys, hkeys'⟩ := Problem.keys_of_solve_eq_solved ht
  refine ⟨_, _, Table.get?_eq_some_getD (hkeys ▸ hn) ∅, Table.get?_eq_some_getD (hkeys' ▸ hn) ∅,
    hbefore, fun σ' hexec => ?_⟩
  have hafter := describes_effect hbefore (hread n hn) hexec
  rw [← hout] at hafter
  exact hafter

/-- Adds the greatest word to itself, which wraps around. -/
def doubling : Method where
  name := "doubling"
  vars := [⟨"p", .int⟩, ⟨"x", .int⟩]
  params := [0]
  body := [{ stmt := .assign (some 1) (.int 2147483647) },
    { stmt := .assign (some 1) (.binary (.arith .add) 1 1) }]

def doublingGraph : Graph StmtId :=
  (Graph.build? [.entry 0, .node 1, .edge ⟨.fallThrough, 0, 1⟩]).getD ∅

theorem facts_describe_runs_doubling :
    ∃ t, (problem doubling doublingGraph {}).solve 3 = .solved t ∧
      ∃ after, ((problem doubling doublingGraph {}).solution t).after.get? 1 = some after ∧
        (after.get 1 = .nac ∨ after.get 1 = .const (-2)) := by
  have hread : ∀ n ∈ doublingGraph.nodes, ReadsInts doubling (stmtAt doubling n) := by
    intro n hn v e hd _ w hw
    have hn : n = 0 ∨ n = 1 := by simpa [show doublingGraph.nodes = [0, 1] by decide] using hn
    obtain rfl | rfl := hn
    · cases hd
      cases hw
    · cases hd
      have hw : w = 1 := by simpa [operands] using hw
      subst hw
      decide
  let σ : Store := fun v => if v = 0 then some 5 else none
  let τ : Store := Function.update σ 1 (some 2147483647)
  have hinit : Initial doubling σ := by
    intro v _
    simp [σ, doubling]
  have hfirst : Executes doubling (stmtAt doubling 0) σ τ := .assign rfl rfl (.int 2147483647)
  have harrives : Arrives doubling doublingGraph 1 τ :=
    .follow (e := ⟨.fallThrough, 0, 1⟩) (.enter rfl hinit) hfirst (by decide)
  have hsum : BinaryOp.Computes (.arith .add) 2147483647 2147483647 (-2) := .arith .add _ _
  have hsecond : Executes doubling (stmtAt doubling 1) τ (Function.update τ 1 (some (-2))) :=
    .assign rfl rfl (.binary rfl rfl (by decide) hsum)
  have hsolved : (problem doubling doublingGraph {}).solve 3 = .solved _ := rfl
  obtain ⟨_, after, _, hafter, _, hdesc⟩ :=
    facts_describe_runs {} rfl rfl hread hsolved harrives
  exact ⟨_, hsolved, after, hafter, hdesc _ hsecond 1 (-2) rfl rfl⟩

end FlowAnalysis.Constants
