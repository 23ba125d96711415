import FlowAnalysis.Graph.Build
import FlowAnalysis.Proofs.Solver.Runs

/-!
# The dataflow equations

What an analysis asks of the facts on the two sides of a node: the fact that comes to the node is
what arrives there, and the fact that goes on is what the node makes of it.  At every moment of a
run the equations hold at all nodes that do not wait to be visited.

## Main definitions

- `Problem.incoming`, `Problem.outgoing` — the two sides of a node, in the direction of the flow
- `Problem.HoldsAt`, `Problem.Solves` — the equations at a node, and at all nodes
- `Problem.Visit` — what a visit does, for an analysis that overwrites

## Main statements

- `Problem.visit_of_step` — every step is a visit
- `Problem.equations_hold` — the equations hold off the worklist, and in the end everywhere
-/

namespace FlowAnalysis.Problem

variable {N φ : Type} [DecidableEq N] {p : Problem N φ} {f : N → φ → φ} {s t : State N φ}

/-- What a solution says comes to a node: the fact before it if the flow is forward, and the fact
after it if the flow is backward. -/
def incoming (p : Problem N φ) (r : Solution N φ) : N → φ :=
  match p.direction with
  | .forward => p.factAt r.before
  | .backward => p.factAt r.after

/-- What a solution says goes on from a node. -/
def outgoing (p : Problem N φ) (r : Solution N φ) : N → φ :=
  match p.direction with
  | .forward => p.factAt r.after
  | .backward => p.factAt r.before

/-- The equations at a node, for nodes that pass facts on by `f`. -/
def HoldsAt (p : Problem N φ) (f : N → φ → φ) (r : Solution N φ) (n : N) : Prop :=
  p.inflow (p.outgoing r) n = some (p.incoming r n) ∧ p.outgoing r n = f n (p.incoming r n)

/-- A solution of the equations at all nodes. -/
def Solves (p : Problem N φ) (f : N → φ → φ) (r : Solution N φ) : Prop :=
  ∀ n ∈ p.graph.nodes, p.HoldsAt f r n

theorem incoming_solution (p : Problem N φ) (s : State N φ) :
    p.incoming (p.solution s) = p.factAt s.inputs := by
  unfold incoming solution
  cases p.direction <;> rfl

theorem outgoing_solution (p : Problem N φ) (s : State N φ) :
    p.outgoing (p.solution s) = p.factAt s.outputs := by
  unfold outgoing solution
  cases p.direction <;> rfl

theorem solution_settle (p : Problem N φ) (s : State N φ) :
    p.solution (p.settle s) = p.solution s := rfl

theorem holdsAt_solution {n : N} : p.HoldsAt f (p.solution s) n ↔
    p.inflow (p.factAt s.outputs) n = some (p.factAt s.inputs n) ∧
      p.factAt s.outputs n = f n (p.factAt s.inputs n) := by
  rw [HoldsAt, incoming_solution, outgoing_solution]

/-! ## Which edges matter -/

private theorem foldlM_congr {α β : Type} {g h : β → α → Option β} {l : List α}
    (heq : ∀ b, ∀ a ∈ l, g b a = h b a) (b : β) : l.foldlM g b = l.foldlM h b := by
  induction l generalizing b with
  | nil => rfl
  | cons a l ih =>
    rw [List.foldlM_cons, List.foldlM_cons, heq b a List.mem_cons_self]
    exact bind_congr fun c => ih (fun b a ha => heq b a (List.mem_cons_of_mem _ ha)) c

/-- What comes to a node depends only on what goes on from the tails of its edges. -/
theorem inflow_congr {out out' : N → φ} {n : N}
    (h : ∀ e ∈ p.direction.arriving p.graph n, out (p.direction.tail e) = out' (p.direction.tail e)) :
    p.inflow out n = p.inflow out' n := by
  unfold inflow
  split
  · rfl
  · apply foldlM_congr
    intro target e he
    simp only [carried, h e he]

theorem mem_next_of_arriving {n m : N} {e : Edge N} (he : e ∈ p.direction.arriving p.graph m)
    (hn : p.direction.tail e = n) : m ∈ p.next n := by
  obtain ⟨hmem, hm⟩ := Direction.mem_arriving.mp he
  exact List.mem_map.mpr ⟨e, Direction.mem_leaving.mpr ⟨hmem, hn⟩, hm⟩

/-- A new fact at one node is not noticed by nodes that the first does not lead to. -/
theorem inflow_update (out : N → φ) (y : φ) {n m : N} (hm : m ∉ p.next n) :
    p.inflow (Function.update out n y) m = p.inflow out m := by
  apply inflow_congr
  intro e he
  exact Function.update_of_ne (fun hn => hm (mem_next_of_arriving he hn)) y out

/-! ## Visits -/

/-- A visit leads from `s` to `t`: the fact `x` comes to the node `n`, which passes it on by `f`. -/
structure Visit (p : Problem N φ) (f : N → φ → φ) (s t : State N φ) (n : N) (x : φ) : Prop where
  worklist_eq : s.worklist = n :: s.worklist.tail
  inflow_eq : p.inflow (p.factAt s.outputs) n = some x
  inputs_eq : p.factAt t.inputs = Function.update (p.factAt s.inputs) n x
  outputs_eq : p.factAt t.outputs = Function.update (p.factAt s.outputs) n (f n x)
  unchanged : f n x = p.factAt s.outputs n → t.worklist = s.worklist.tail
  changed : f n x ≠ p.factAt s.outputs n → t.worklist = s.worklist.tail ++ p.next n
  visited_eq : t.visited = s.visited.push n

theorem visit_of_step (hf : p.analysis.Overwrites f) (h : p.Coherent s) (hw : s.worklist ≠ [])
    (ht : p.step s = .ok t) : ∃ n x, p.Visit f s t n x := by
  obtain ⟨n, rest, x, l, hr, hx, hl, rfl⟩ := h.step_cases hw ht
  obtain ⟨hfact, hchanged⟩ := hf n x (p.factAt s.outputs n)
  refine ⟨n, x, by rw [hr, List.tail_cons], hx, factAt_insert s.inputs n x, ?_, ?_, ?_, rfl⟩
  · show p.factAt (s.outputs.insert n (p.analysis.transfer n x (p.factAt s.outputs n)).fact) = _
    rw [hfact, factAt_insert]
  · intro heq
    have hc : (p.analysis.transfer n x (p.factAt s.outputs n)).changed = false := by
      rw [← Bool.not_eq_true, hchanged]
      exact not_not.mpr heq
    simp [pass, hc, hr]
  · intro hne
    simp [pass, hchanged.mpr hne, hr]

theorem Visit.mem_nodes {n : N} {x : φ} (v : p.Visit f s t n x) (h : p.Coherent s) :
    n ∈ p.graph.nodes :=
  h.worklist_mem n (v.worklist_eq ▸ List.mem_cons_self)

/-- Nodes that do not wait after a visit have the same facts arriving as before it. -/
theorem Visit.inflow_of_not_mem {n m : N} {x : φ} (v : p.Visit f s t n x) (hm : m ∉ t.worklist) :
    p.inflow (p.factAt t.outputs) m = p.inflow (p.factAt s.outputs) m := by
  rw [v.outputs_eq]
  by_cases heq : f n x = p.factAt s.outputs n
  · rw [heq, Function.update_eq_self]
  · rw [v.changed heq, List.mem_append, not_or] at hm
    exact inflow_update _ _ hm.2

theorem Visit.not_mem_tail {n m : N} {x : φ} (v : p.Visit f s t n x) (hm : m ∉ t.worklist) :
    m ∉ s.worklist.tail := by
  by_cases heq : f n x = p.factAt s.outputs n
  · rwa [v.unchanged heq] at hm
  · rw [v.changed heq, List.mem_append, not_or] at hm
    exact hm.1

/-! ## The equations during a run -/

theorem holdsAt_of_visit {n m : N} {x : φ} (v : p.Visit f s t n x)
    (hs : m ∉ s.worklist → p.HoldsAt f (p.solution s) m) (hm : m ∉ t.worklist) :
    p.HoldsAt f (p.solution t) m := by
  rw [holdsAt_solution, v.inflow_of_not_mem hm, v.inputs_eq, v.outputs_eq]
  by_cases hmn : m = n
  · -- The node was visited; had it an edge to itself and changed, it would wait again.
    subst hmn
    simp only [Function.update_self]
    exact ⟨v.inflow_eq, trivial⟩
  · have hold : m ∉ s.worklist := by
      rw [v.worklist_eq, List.mem_cons, not_or]
      exact ⟨hmn, v.not_mem_tail hm⟩
    rw [Function.update_of_ne hmn, Function.update_of_ne hmn]
    exact holdsAt_solution.mp (hs hold)

theorem Reachable.holdsAt (hf : p.analysis.Overwrites f) (h : p.Reachable s) {n : N}
    (hn : n ∈ p.graph.nodes) (hw : n ∉ s.worklist) : p.HoldsAt f (p.solution s) n := by
  induction h with
  | begin h =>
    -- Before the first visit all nodes wait.
    obtain ⟨start, -, rfl⟩ := begin_eq_ok h
    exact absurd hn hw
  | step hs hne ht ih =>
    obtain ⟨m, x, v⟩ := visit_of_step hf hs.coherent hne ht
    exact holdsAt_of_visit v ih hw

theorem solves_of_solve_eq_solved (hf : p.analysis.Overwrites f) {limit : Nat}
    (h : p.solve limit = .solved t) : p.Solves f (p.solution t) := by
  obtain ⟨s, hs, hw, rfl⟩ := solve_eq_solved h
  intro n hn
  rw [solution_settle]
  exact hs.holdsAt hf hn (by simp [hw])

/-! ## Properties of all facts -/

/-- A property of facts that a problem keeps: it holds of the facts at first, and merging, the edges
of the graph and its nodes make facts that have it out of facts that have it. -/
structure Keeps (p : Problem N φ) (I : φ → Prop) : Prop where
  boundary : I p.analysis.boundary
  initial : I p.analysis.initial
  merge : ∀ x y, I x → I y → I (p.analysis.merge x y)
  edge : ∀ e ∈ p.graph.edges, ∀ x y, I x → p.analysis.edgeTransfer e x = some y → I y
  node : ∀ n ∈ p.graph.nodes, ∀ x recorded, I x → I recorded →
    I (p.analysis.transfer n x recorded).fact

variable {I : φ → Prop}

theorem Keeps.carried (hk : p.Keeps I) {out : N → φ} (ho : ∀ n, I (out n)) {e : Edge N} {x : φ}
    (he : e ∈ p.graph.edges) (hx : p.carried out e = some x) : I x := by
  unfold Problem.carried at hx
  split at hx
  · exact hk.edge e he _ x (ho _) hx
  · exact Option.some.inj hx ▸ ho _

theorem Keeps.inflow (hk : p.Keeps I) {out : N → φ} (ho : ∀ n, I (out n)) {n : N} {x : φ}
    (hx : p.inflow out n = some x) : I x := by
  unfold Problem.inflow at hx
  split at hx
  · exact Option.some.inj hx ▸ hk.boundary
  · have key : ∀ (es : List (Edge N)) (target : φ), (∀ e ∈ es, e ∈ p.graph.edges) → I target →
        es.foldlM (fun target e => (p.carried out e).map (p.analysis.merge · target)) target =
          some x → I x := by
      intro es
      induction es with
      | nil => intro target _ ht h; exact Option.some.inj h ▸ ht
      | cons e es ih =>
        intro target hes ht h
        obtain ⟨he, hes⟩ := List.forall_mem_cons.mp hes
        rw [List.foldlM_cons] at h
        cases hy : p.carried out e with
        | none => simp [hy] at h
        | some y =>
          simp only [hy] at h
          exact ih _ hes (hk.merge y target (hk.carried ho he hy) ht) h
    exact key _ _ (fun e he => (Direction.mem_arriving.mp he).1) hk.initial hx

/-- Such a property holds of all facts during a run. -/
theorem Reachable.forall_factAt (hk : p.Keeps I) (h : p.Reachable s) :
    ∀ n, I (p.factAt s.inputs n) ∧ I (p.factAt s.outputs n) := by
  induction h with
  | begin h =>
    obtain ⟨start, -, rfl⟩ := begin_eq_ok h
    intro n
    refine ⟨?_, by rw [factAt_beginAt_outputs]; exact hk.initial⟩
    rw [factAt_beginAt_inputs]
    split
    · exact hk.boundary
    · exact hk.initial
  | @step s t hs hne ht ih =>
    obtain ⟨m, rest, x, l, hr, hx, -, rfl⟩ := hs.coherent.step_cases hne ht
    have hm : m ∈ p.graph.nodes := hs.coherent.worklist_mem m (hr ▸ List.mem_cons_self)
    have hkept : I x := hk.inflow (fun n => (ih n).2) hx
    intro n
    show I (p.factAt (s.inputs.insert m x) n) ∧ I (p.factAt (s.outputs.insert m
      (p.analysis.transfer m x (p.factAt s.outputs m)).fact) n)
    rw [factAt_insert, factAt_insert]
    by_cases hnm : n = m
    · subst hnm
      simp only [Function.update_self]
      exact ⟨hkept, hk.node n hm x _ hkept (ih n).2⟩
    · rw [Function.update_of_ne hnm, Function.update_of_ne hnm]
      exact ih n

/-- A property of facts that all parts of an analysis keep. -/
structure Closed (p : Problem N φ) (f : N → φ → φ) (I : φ → Prop) : Prop where
  boundary : I p.analysis.boundary
  initial : I p.analysis.initial
  merge : ∀ x y, I x → I y → I (p.analysis.merge x y)
  edge : ∀ e x y, I x → p.analysis.edgeTransfer e x = some y → I y
  node : ∀ n x, I x → I (f n x)

theorem Closed.keeps (hf : p.analysis.Overwrites f) (hc : p.Closed f I) : p.Keeps I where
  boundary := hc.boundary
  initial := hc.initial
  merge := hc.merge
  edge e _ := hc.edge e
  node n _ x recorded hx _ := by
    rw [(hf n x recorded).1]
    exact hc.node n x hx

@[inherit_doc Reachable.forall_factAt]
theorem Reachable.forall_facts (hf : p.analysis.Overwrites f) (hc : p.Closed f I)
    (h : p.Reachable s) : ∀ n, I (p.factAt s.inputs n) ∧ I (p.factAt s.outputs n) :=
  h.forall_factAt (hc.keeps hf)

theorem keys_solution (h : p.Coherent s) :
    (p.solution s).before.keys = p.graph.nodes ∧ (p.solution s).after.keys = p.graph.nodes := by
  unfold solution
  cases p.direction
  · exact ⟨h.keys_inputs, h.keys_outputs⟩
  · exact ⟨h.keys_outputs, h.keys_inputs⟩

theorem keys_of_solve_eq_solved {limit : Nat} (h : p.solve limit = .solved t) :
    (p.solution t).before.keys = p.graph.nodes ∧ (p.solution t).after.keys = p.graph.nodes := by
  obtain ⟨s, hs, -, rfl⟩ := solve_eq_solved h
  rw [solution_settle]
  exact keys_solution hs.coherent

/-- For an analysis that overwrites the fact behind a node by a function of the fact before it, and
reports changes truthfully, the equations hold before every visit at each node that is not on the
worklist.  So a solution that the solver returns satisfies them at every node.  In both cases each
node of the graph, and no other, has a fact on either side. -/
theorem equations_hold (p : Problem N φ) {f : N → φ → φ} (hf : p.analysis.Overwrites f) :
    (∀ s, p.Reachable s →
      ((p.solution s).before.keys = p.graph.nodes ∧ (p.solution s).after.keys = p.graph.nodes) ∧
      ∀ n ∈ p.graph.nodes, n ∉ s.worklist → p.HoldsAt f (p.solution s) n) ∧
    (∀ limit t, p.solve limit = .solved t →
      ((p.solution t).before.keys = p.graph.nodes ∧ (p.solution t).after.keys = p.graph.nodes) ∧
      p.Solves f (p.solution t)) := by
  refine ⟨fun s hs => ⟨keys_solution hs.coherent, fun n hn hw => hs.holdsAt hf hn hw⟩, ?_⟩
  intro limit t h
  exact ⟨keys_of_solve_eq_solved h, solves_of_solve_eq_solved hf h⟩

/-- Two nodes in a loop through the entry, each of which negates what comes to it. -/
def negationLoop (d : Direction) : Problem Nat Bool where
  graph := (Graph.build? [.entry 0, .exit 1, .edge ⟨.fallThrough, 0, 1⟩, .edge ⟨.goto, 1, 0⟩]).getD ∅
  analysis :=
    { id := "negation", direction := d, boundary := true, initial := false
      merge := fun x target => x || target
      transfer := fun _ x recorded => .ofFact (!x) recorded [] }

theorem equations_hold_negationLoop :
    (∀ d, (negationLoop d).analysis.Overwrites fun _ x => !x) ∧
      (∃ t, (negationLoop .forward).solve 3 = .solved t ∧
        (negationLoop .forward).Solves (fun _ x => !x) ((negationLoop .forward).solution t)) ∧
      ∃ t, (negationLoop .backward).solve 4 = .solved t ∧
        (negationLoop .backward).Solves (fun _ x => !x) ((negationLoop .backward).solution t) := by
  have hf : ∀ d, (negationLoop d).analysis.Overwrites fun _ x => !x := by
    intro d n x recorded
    exact ⟨rfl, by simp [negationLoop, Transfer.ofFact]⟩
  exact ⟨hf, ⟨_, rfl, ((equations_hold _ (hf .forward)).2 3 _ rfl).2⟩,
    ⟨_, rfl, ((equations_hold _ (hf .backward)).2 4 _ rfl).2⟩⟩

end FlowAnalysis.Problem
