import FlowAnalysis.Graph.Build
import FlowAnalysis.Proofs.Constants.Slicing

/-!
# Which variables are tracked

Constant propagation never comes to know anything of a variable that cannot hold an integer, nor of
one that neither comes with a value nor is defined at a node of the graph.  Of the variables that
come with a value it knows at the entry that they may hold anything, and this stays so to the end of
the run, whatever leads back to the entry.

## Main definitions

- `Arises` — a variable comes with a value, or a node defines it
- `intTypes` — the types of variables that hold integers
- `trackable` — the variables that a fact can say anything of

## Main statements

- `mem_entries_boundary` — what is known at the entry
- `keeps_tracks` — no part of constant propagation speaks of other variables
- `only_trackable_tracked` — what all facts of a run speak of, and what the entry starts from
-/

namespace FlowAnalysis.Constants

variable {m : Method} {g : Graph StmtId} {o : Options} {s : State StmtId Fact} {v : VarId}

/-- A variable has a value before the method starts, or a node of the graph defines it. -/
def Arises (m : Method) (g : Graph StmtId) (v : VarId) : Prop :=
  m.receiver? = some v ∨ v ∈ m.params ∨ ∃ n ∈ g.nodes, ∃ e, Defines m n v e

theorem exists_defines_iff {n : StmtId} : (∃ e, Defines m n v e) ↔
    (stmtAt m n).definition?.any (·.place = some (.var v)) = true := by
  simp only [Option.any_eq_true, decide_eq_true_eq]
  constructor
  · rintro ⟨e, he⟩
    exact ⟨_, he, rfl⟩
  · rintro ⟨⟨place, e⟩, he, rfl⟩
    exact ⟨e, he⟩

instance (m : Method) (n : StmtId) (v : VarId) : Decidable (∃ e, Defines m n v e) :=
  decidable_of_iff _ exists_defines_iff.symm

instance (m : Method) (g : Graph StmtId) (v : VarId) : Decidable (Arises m g v) :=
  inferInstanceAs (Decidable (_ ∨ _ ∨ _))

/-- The variables that a fact can say anything of. -/
def trackable (m : Method) (g : Graph StmtId) : Set VarId := {v | v ∈ ints m ∧ Arises m g v}

/-- The types whose values are 32-bit integers. -/
def intTypes : List Ty := [.byte, .short, .int, .char, .boolean]

theorem holdsInt_iff : m.holdsInt v = true ↔ ∃ d, m.vars[v]? = some d ∧ d.type ∈ intTypes := by
  have htype : ∀ t : Ty, t.holdsInt = true ↔ t ∈ intTypes := by
    intro t
    cases t <;> simp [Ty.holdsInt, intTypes]
  simp only [Method.holdsInt, Option.any_eq_true, htype]

/-- No part of constant propagation speaks of other variables: not what is known at the entry, not
merging, and not the statement at a node. -/
theorem keeps_tracks (m : Method) (g : Graph StmtId) (o : Options) :
    (problem m g o).Keeps (·.Tracks (trackable m g)) where
  boundary := by
    refine tracks_boundary fun v hv => ?_
    obtain ⟨hsupplied, hint⟩ := mem_suppliedVars.mp hv
    exact ⟨hint, hsupplied.elim .inl fun hparam => .inr (.inl hparam)⟩
  initial := Fact.tracks_empty _
  merge _ _ hx hy := hx.merge hy
  edge _ _ _ _ _ h := by cases h
  node n hn x recorded hx _ := by
    refine tracks_effect (fun v e hs => ?_) hx
    obtain ⟨hdef, hint⟩ := followed?_eq_some.mp hs
    exact ⟨hint, .inr (.inr ⟨n, hn, e, hdef⟩)⟩

theorem tracks_of_recorded (hs : (problem m g o).Reachable s) {n : StmtId} {f : Fact}
    (hf : s.inputs.get? n = some f ∨ s.outputs.get? n = some f) : f.Tracks (trackable m g) := by
  obtain ⟨hin, hout⟩ := hs.forall_factAt (keeps_tracks m g o) n
  rw [Problem.factAt, Table.getD] at hin hout
  obtain hf | hf := hf
  · rwa [hf] at hin
  · rwa [hf] at hout

/-- What a fact that speaks of trackable variables only has entries for. -/
theorem mem_of_tracks {f : Fact} (hf : f.Tracks (trackable m g)) {x : Value}
    (hx : (v, x) ∈ f.entries) : x ≠ .undef ∧ Arises m g v ∧
      ∃ d, m.vars[v]? = some d ∧ d.type ∈ intTypes := by
  obtain ⟨rfl, hne⟩ := Fact.mem_entries.mp hx
  obtain ⟨hint, harises⟩ := hf v hne
  exact ⟨hne, harises, holdsInt_iff.mp hint⟩

/-- At the entry stand the variables that come with a value, as far as they hold integers. -/
theorem mem_entries_boundary {x : Value} : (v, x) ∈ (boundary m).entries ↔
    x = .nac ∧ (m.receiver? = some v ∨ v ∈ m.params) ∧
      ∃ d, m.vars[v]? = some d ∧ d.type ∈ intTypes := by
  rw [Fact.mem_entries, get_boundary, ← holdsInt_iff, ← mem_suppliedVars]
  split
  · next hv =>
    rw [and_iff_left hv, eq_comm]
    exact and_iff_left_of_imp fun hx => hx ▸ nofun
  · next hv =>
    rw [eq_comm]
    exact iff_of_false (fun h => h.2 h.1) fun h => hv h.2

/-- Whatever has been found out about constants at any time of a run, however long, is about
variables that hold integers, and that come with a value or are defined at a node of the graph; of
any other variable, and so of every wide, floating or reference variable, nothing is known.  What
comes to the entry is all the time that the variables that come with a value may hold anything. -/
theorem only_trackable_tracked (m : Method) (g : Graph StmtId) (o : Options)
    {s : State StmtId Fact} (hs : (problem m g o).Reachable s) :
    (∀ n f, s.inputs.get? n = some f ∨ s.outputs.get? n = some f →
      (∀ v x, (v, x) ∈ f.entries → x ≠ .undef ∧ Arises m g v ∧
        ∃ d, m.vars[v]? = some d ∧ d.type ∈ intTypes) ∧
      (∀ v, ¬ Arises m g v → f.get v = .undef) ∧
      ∀ v d, m.vars[v]? = some d →
        d.type ∈ [Ty.long, .float, .double, .void] ∨ d.type.isReference = true →
        f.get v = .undef) ∧
    ∀ n, g.entry? = some n → ∃ f, s.inputs.get? n = some f ∧
      ∀ v x, (v, x) ∈ f.entries ↔ x = .nac ∧ (m.receiver? = some v ∨ v ∈ m.params) ∧
        ∃ d, m.vars[v]? = some d ∧ d.type ∈ intTypes := by
  constructor
  · intro n f hf
    have htracks : f.Tracks (trackable m g) := tracks_of_recorded hs hf
    refine ⟨fun v x => mem_of_tracks htracks, fun v hv => ?_, fun v d hd htype => ?_⟩
    · exact Classical.not_not.mp fun hne => hv (htracks v hne).2
    · refine Classical.not_not.mp fun hne => ?_
      obtain ⟨d', hd', hint⟩ := holdsInt_iff.mp (htracks v hne).1
      obtain rfl : d = d' := Option.some.inj (hd.symm.trans hd')
      revert htype hint
      cases d.type <;> simp [intTypes, Ty.isReference]
  · intro n hn
    have hboundary : (problem m g o).factAt s.inputs n = boundary m := hs.coherent.input_start n hn
    refine ⟨boundary m, ?_, fun v x => mem_entries_boundary⟩
    have hkey : n ∈ s.inputs.keys := hs.coherent.keys_inputs ▸ g.entry_mem n hn
    rw [← hboundary]
    exact Table.get?_eq_some_getD hkey _

/-- Starts over again and again.  The first receiver has been replaced, the last statement is not
in the graph, and in between something is stored and something discarded. -/
def rewinding : Method := Method.build "rewinding"
  [.newReceiver .int, .newReceiver .char, .newParam ⟨"a", .int⟩, .newParam ⟨"w", .long⟩,
    .newVar ⟨"x", .int⟩, .newVar ⟨"y", .int⟩, .newVar ⟨"o", .reference "Cell"⟩,
    .newStmt { stmt := .assign (some 4) (.int 5) },
    .newStmt { stmt := .store ⟨6, "value", .int⟩ 4 },
    .newStmt { stmt := .assign none (.binary (.arith .add) 2 4) },
    .newStmt { stmt := .jump (some 0) },
    .newStmt { stmt := .assign (some 5) (.int 7) }]

def rewindingGraph : Graph StmtId :=
  (Graph.build? [.entry 0, .node 1, .node 2, .node 3, .edge ⟨.fallThrough, 0, 1⟩,
    .edge ⟨.fallThrough, 1, 2⟩, .edge ⟨.fallThrough, 2, 3⟩, .edge ⟨.goto, 3, 0⟩]).getD ∅

theorem only_trackable_tracked_rewinding :
    ∃ s, (problem rewinding rewindingGraph {}).Reachable s ∧ s.worklist = [] ∧
      (s.outputs.get? 3).map Fact.entries = some [(1, .nac), (2, .nac), (4, .const 5)] ∧
      (∀ n f, s.inputs.get? n = some f ∨ s.outputs.get? n = some f →
        f.get 0 = .undef ∧ f.get 3 = .undef ∧ f.get 5 = .undef ∧ f.get 6 = .undef) ∧
      ∃ f, s.inputs.get? 0 = some f ∧ ∀ v x, (v, x) ∈ f.entries ↔ x = .nac ∧ v ∈ [1, 2] := by
  obtain ⟨t, ht, hout⟩ : ∃ t, (problem rewinding rewindingGraph {}).solve 9 = .solved t ∧
      (t.outputs.get? 3).map Fact.entries = some [(1, .nac), (2, .nac), (4, .const 5)] :=
    ⟨_, rfl, rfl⟩
  obtain ⟨s, hs, hw, rfl⟩ := Problem.solve_eq_solved ht
  obtain ⟨htracked, hentry⟩ := only_trackable_tracked rewinding rewindingGraph {} hs
  refine ⟨s, hs, hw, hout, fun n f hf => ?_, ?_⟩
  · obtain ⟨-, harises, hwide⟩ := htracked n f hf
    exact ⟨harises 0 (by decide), hwide 3 ⟨"w", .long⟩ rfl (by decide), harises 5 (by decide),
      hwide 6 ⟨"o", .reference "Cell"⟩ rfl (.inr rfl)⟩
  · obtain ⟨f, hf, hentries⟩ := hentry 0 rfl
    refine ⟨f, hf, fun v x => ?_⟩
    rw [hentries, ← holdsInt_iff, ← mem_suppliedVars]
    rfl

end FlowAnalysis.Constants
