import FlowAnalysis.Proofs.Solver.Lookups
import FlowAnalysis.Solver.TwoWay

/-!
# The solver and its two directions

The solver says once what happens along the edges and against them.  Written out for either
direction it is the same solver: a state of the one, with the facts put in the order of the program,
is a state of the other, before every visit and in the end.

## Main definitions

- `Problem.progress`, `Problem.ending` — states and outcomes with the facts in the order of the
  program

## Main statements

- `Forward.visit_eq`, `Backward.visit_eq` — one visit
- `Forward.solve_eq`, `Backward.solve_eq` — a solve along the edges, and one against them
- `TwoWay.solve_eq` — a solve in the direction of the analysis
-/

namespace FlowAnalysis

variable {N φ : Type} [DecidableEq N] {p : Problem N φ} {s : State N φ} {n start : N}

/-- What is contributed by one of several distinct elements only. -/
private theorem flatMap_ite_eq {α β : Type} [DecidableEq α] {a : α} {l : List α} (hl : l.Nodup)
    (ha : a ∈ l) (bs : List β) : (l.flatMap fun b => if b = a then bs else []) = bs := by
  induction l with
  | nil => cases ha
  | cons b l ih =>
    obtain ⟨hb, hl⟩ := List.nodup_cons.mp hl
    rw [List.flatMap_cons]
    obtain rfl | ha := List.mem_cons.mp ha
    · have hrest : (l.flatMap fun b => if b = a then bs else []) = [] := by
        refine List.flatMap_eq_nil_iff.mpr fun c hc => if_neg ?_
        rintro rfl
        exact hb hc
      rw [if_pos rfl, hrest, List.append_nil]
    · have hne : b ≠ a := fun h => hb (h ▸ ha)
      rw [if_neg hne, ih hl ha, List.nil_append]

namespace Problem

/-- How far a state has come, with the facts in the order of the program. -/
def progress (p : Problem N φ) (s : State N φ) : Progress N φ :=
  ⟨p.solution s, s.worklist, s.ledger, s.visited, s.log⟩

/-- How an outcome ends, with the facts in the order of the program. -/
def ending (p : Problem N φ) : Outcome N φ → Ending N φ
  | .solved s => .solved (p.progress s)
  | .failed err log => .failed err log
  | .unsettled s => .unsettled (p.progress s)

theorem solution_of_forward (hd : p.direction = .forward) (s : State N φ) :
    p.solution s = ⟨s.inputs, s.outputs⟩ := by
  rw [solution, hd]

theorem solution_of_backward (hd : p.direction = .backward) (s : State N φ) :
    p.solution s = ⟨s.outputs, s.inputs⟩ := by
  rw [solution, hd]

/-- Putting the facts in the order of the program loses none of them. -/
theorem progress_injective (p : Problem N φ) : Function.Injective p.progress := by
  rintro ⟨inputs, outputs, worklist, ledger, visited, log⟩
    ⟨inputs', outputs', worklist', ledger', visited', log'⟩ h
  simp only [progress, solution] at h
  cases hd : p.direction <;> simp_all

end Problem

namespace TwoWay

theorem write_append (p : Problem N φ) (log : Trail Message) (ms ns : List Message) :
    write p (write p log ms) ns = write p log (ms ++ ns) := by
  apply Trail.ext_toList
  simp [write, Problem.shown, Diagnostics.shown_append]

/-- A fact is looked up at one end of an edge, and carried to the other. -/
theorem cross_eq (p : Problem N φ) (outputs : Table N φ) (e : Edge N) (l : Ledger N) :
    Checked.cross p outputs e l =
      (Checked.factAt outputs (p.direction.tail e)).map (carry p e · l) := by
  unfold Checked.cross carry
  cases Checked.factAt outputs (p.direction.tail e) with
  | error miss => rfl
  | ok fact =>
    dsimp only [Except.map, bind, Except.bind]
    obtain ⟨changes, l⟩ := p.consult e l
    cases changes with
    | false => rfl
    | true =>
      dsimp only
      cases p.analysis.edgeTransfer e fact <;> rfl

/-- The loop comes to what a run comes to, if a visit comes to what a visit of the run comes to. -/
theorem drain_eq [DecidableEq φ]
    {visit : Progress N φ → N → Except (Miss N) (Except SolveError (Progress N φ))}
    (hvisit : ∀ s n, visit (p.progress s) n = (Checked.visit p s n).map (Except.map p.progress))
    (limit : Nat) (s : State N φ) :
    drain p visit limit (p.progress s) = (Checked.run p limit s).map p.ending := by
  induction limit generalizing s with
  | zero =>
    obtain ⟨inputs, outputs, worklist, ledger, visited, log⟩ := s
    cases worklist <;> rfl
  | succ limit ih =>
    obtain ⟨inputs, outputs, worklist, ledger, visited, log⟩ := s
    cases worklist with
    | nil => rfl
    | cons n rest =>
      let s : State N φ := ⟨inputs, outputs, rest, ledger, visited, log⟩
      show Except.bind (visit (p.progress s) n) _ =
        Except.map p.ending (Except.bind (Checked.visit p s n) _)
      rw [hvisit s n]
      cases Checked.visit p s n with
      | error miss => rfl
      | ok attempt =>
        cases attempt with
        | error err => rfl
        | ok t => exact ih t

/-- A visit that receives and passes on as the solver does comes to what a visit of the solver comes
to. -/
theorem visit_eq_of [DecidableEq φ]
    {receive : Progress N φ → N → Except (Miss N) (Except SolveError (Progress N φ))}
    {pass : Progress N φ → N → Except (Miss N) (Progress N φ)}
    (hreceive : receive (p.progress s) n = (Checked.receive p s n).map
      (Except.map fun r => p.progress { s with inputs := r.1, ledger := r.2 }))
    (hpass : ∀ inputs ledger, pass (p.progress { s with inputs, ledger }) n =
      (Checked.pass p s n inputs ledger).map p.progress) :
    (do match ← receive (p.progress s) n with
      | .ok s => return .ok (← pass s n)
      | .error err => return .error err) =
      (Checked.visit p s n).map (Except.map p.progress) := by
  unfold Checked.visit
  rw [hreceive]
  cases Checked.receive p s n with
  | error miss => rfl
  | ok attempt =>
    cases attempt with
    | error err => rfl
    | ok r =>
      dsimp only [Except.map, bind, Except.bind]
      rw [hpass]
      cases Checked.pass p s n r.1 r.2 <;> rfl

/-- A solve that starts and visits as the solver does comes to what the solver comes to. -/
theorem solve_eq_of [DecidableEq φ] {prepared : Except SolveError (Progress N φ)} {d : Direction}
    (hprepared : prepared.map (enqueue p d) = p.begin.map p.progress)
    {visit : Progress N φ → N → Except (Miss N) (Except SolveError (Progress N φ))}
    (hvisit : ∀ s n, visit (p.progress s) n = (Checked.visit p s n).map (Except.map p.progress))
    (limit : Nat) :
    (match prepared with
      | .ok s => drain p visit limit (enqueue p d s)
      | .error err => return .failed err ∅) = .ok (p.ending (p.solve limit)) := by
  unfold Problem.solve
  cases hs : p.begin with
  | error err =>
    rw [hs] at hprepared
    cases prepared with
    | error err' => rw [Except.error.inj hprepared]; rfl
    | ok s => cases hprepared
  | ok s =>
    rw [hs] at hprepared
    cases prepared with
    | error err => cases hprepared
    | ok s' =>
      have hs' : enqueue p d s' = p.progress s := Except.ok.inj hprepared
      dsimp only
      rw [hs', drain_eq hvisit, Checked.run_eq (.begin hs)]
      rfl

end TwoWay

/-! ## Along the edges -/

namespace Forward

open TwoWay

theorem gather_eq (hd : p.direction = .forward) (outputs : Table N φ) (es : List (Edge N)) (x : φ)
    (l : Ledger N) : gather p outputs es x l = Checked.gather p outputs es x l := by
  induction es generalizing x l with
  | nil => rfl
  | cons e es ih =>
    rw [gather, Checked.gather, cross_eq, hd]
    cases hfact : Checked.factAt outputs e.source with
    | error miss => rw [Direction.tail, hfact]; rfl
    | ok fact =>
      rw [Direction.tail, hfact]
      dsimp only [Except.map, bind, Except.bind]
      cases carry p e fact l with
      | error err => rfl
      | ok r => exact ih _ _

variable [DecidableEq φ]

theorem receive_eq (hd : p.direction = .forward) (s : State N φ) (n : N) :
    receive p (p.progress s) n = (Checked.receive p s n).map
      (Except.map fun r => p.progress { s with inputs := r.1, ledger := r.2 }) := by
  have hstart : p.graph.isEntry n = decide (p.start? = some n) := by
    rw [Problem.start?, hd]
    rfl
  have harriving : Checked.arriving p.direction p.graph n = Checked.inEdges p.graph n := by
    rw [hd]
    rfl
  simp only [Problem.progress, Problem.solution_of_forward hd]
  unfold receive Checked.receive
  rw [hstart, harriving]
  by_cases hn : p.start? = some n
  · simp only [hn]
    rfl
  · simp only [hn, decide_false, Bool.false_eq_true, if_false]
    cases Checked.inEdges p.graph n with
    | error miss => rfl
    | ok es =>
      dsimp only [bind, Except.bind]
      rw [gather_eq hd]
      cases Checked.gather p s.outputs es p.analysis.initial s.ledger with
      | error miss => rfl
      | ok r =>
        cases r with
        | error err => rfl
        | ok r =>
          dsimp only
          cases Checked.factAt s.inputs n with
          | error miss => rfl
          | ok recorded =>
            by_cases h : r.1 = recorded
            · simp only [h, if_true]
              rfl
            · simp only [h, if_false]
              rfl

omit [DecidableEq φ] in
theorem pass_eq (hd : p.direction = .forward) (s : State N φ) (n : N) (inputs : Table N φ)
    (ledger : Ledger N) :
    pass p (p.progress { s with inputs, ledger }) n =
      (Checked.pass p s n inputs ledger).map p.progress := by
  unfold pass Checked.pass Checked.next Checked.leaving
  simp only [Problem.progress, Problem.solution_of_forward hd, hd]
  cases Checked.factAt inputs n with
  | error miss => rfl
  | ok before =>
    dsimp only [bind, Except.bind]
    cases Checked.factAt s.outputs n with
    | error miss => rfl
    | ok after =>
      dsimp only
      cases (p.analysis.transfer n before after).changed with
      | false =>
        simp only [Bool.false_eq_true, if_false, pure, Except.pure, Except.map, Problem.progress,
          Problem.solution_of_forward hd, List.append_nil]
        rfl
      | true =>
        simp only [if_true]
        cases Checked.outEdges p.graph n with
        | error miss => rfl
        | ok es =>
          simp only [pure, Except.pure, Except.map, Problem.progress,
            Problem.solution_of_forward hd, List.length_map, write_append]
          rfl

theorem visit_eq (hd : p.direction = .forward) (s : State N φ) (n : N) :
    visit p (p.progress s) n = (Checked.visit p s n).map (Except.map p.progress) :=
  visit_eq_of (receive_eq hd s n) (pass_eq hd s n)

omit [DecidableEq φ] in
theorem foldl_seed (hstart : p.graph.entry? = some start) (ns : List N) (s : Progress N φ) :
    ns.foldl (seed p) s = { s with
      facts :=
        { before := ns.foldl (fun t n => t.insert n
            (if n = start then p.analysis.boundary else p.analysis.initial)) s.facts.before
          after := ns.foldl (fun t n => t.insert n p.analysis.initial) s.facts.after }
      log := write p s.log (ns.flatMap fun n =>
        if n = start then p.analysis.boundaryMessages else []) } := by
  induction ns generalizing s with
  | nil => rfl
  | cons n ns ih =>
    rw [List.foldl_cons, ih, List.foldl_cons, List.foldl_cons, List.flatMap_cons, ← write_append]
    by_cases hn : n = start
    · subst hn
      have hentry : p.graph.isEntry n = true := by simp [Graph.isEntry, hstart]
      simp only [seed, hentry, if_true]
      rfl
    · have hentry : p.graph.isEntry n = false := by simp [Graph.isEntry, hstart, Ne.symm hn]
      simp only [seed, hentry, hn, if_false]
      rfl

omit [DecidableEq φ] in
theorem prepare_eq (hd : p.direction = .forward) :
    (prepare p).map (enqueue p .forward) = p.begin.map p.progress := by
  unfold prepare Problem.begin
  have hstart : p.start? = p.graph.entry? := by
    rw [Problem.start?, hd]
    rfl
  rw [hstart]
  cases hentry : p.graph.entry? with
  | none => rw [hd]; rfl
  | some start =>
    have hnodup : p.graph.nodes.Nodup := p.graph.nodes_nodup
    have hmem : start ∈ p.graph.nodes := p.graph.entry_mem start hentry
    dsimp only
    rw [foldl_seed hentry, flatMap_ite_eq hnodup hmem]
    simp only [Except.map, enqueue, write_append, Problem.progress, Problem.solution_of_forward hd,
      hd, Problem.beginAt]
    rfl

/-- Written out along the edges, the solver comes to what it comes to. -/
theorem solve_eq (hd : p.direction = .forward) (limit : Nat) :
    solve p limit = .ok (p.ending (p.solve limit)) :=
  solve_eq_of (prepare_eq hd) (visit_eq hd) limit

end Forward

/-! ## Against the edges -/

namespace Backward

open TwoWay

theorem gather_eq (hd : p.direction = .backward) (outputs : Table N φ) (es : List (Edge N)) (x : φ)
    (l : Ledger N) : gather p outputs es x l = Checked.gather p outputs es x l := by
  induction es generalizing x l with
  | nil => rfl
  | cons e es ih =>
    rw [gather, Checked.gather, cross_eq, hd]
    cases hfact : Checked.factAt outputs e.target with
    | error miss => rw [Direction.tail, hfact]; rfl
    | ok fact =>
      rw [Direction.tail, hfact]
      dsimp only [Except.map, bind, Except.bind]
      cases carry p e fact l with
      | error err => rfl
      | ok r => exact ih _ _

variable [DecidableEq φ]

theorem receive_eq (hd : p.direction = .backward) (s : State N φ) (n : N) :
    receive p (p.progress s) n = (Checked.receive p s n).map
      (Except.map fun r => p.progress { s with inputs := r.1, ledger := r.2 }) := by
  have hstart : p.graph.isExit n = decide (p.start? = some n) := by
    rw [Problem.start?, hd]
    rfl
  have harriving : Checked.arriving p.direction p.graph n = Checked.outEdges p.graph n := by
    rw [hd]
    rfl
  simp only [Problem.progress, Problem.solution_of_backward hd]
  unfold receive Checked.receive
  rw [hstart, harriving]
  by_cases hn : p.start? = some n
  · simp only [hn]
    rfl
  · simp only [hn, decide_false, Bool.false_eq_true, if_false]
    cases Checked.outEdges p.graph n with
    | error miss => rfl
    | ok es =>
      dsimp only [bind, Except.bind]
      rw [gather_eq hd]
      cases Checked.gather p s.outputs es p.analysis.initial s.ledger with
      | error miss => rfl
      | ok r =>
        cases r with
        | error err => rfl
        | ok r =>
          dsimp only
          cases Checked.factAt s.inputs n with
          | error miss => rfl
          | ok recorded =>
            by_cases h : r.1 = recorded
            · simp only [h, if_true]
              rfl
            · simp only [h, if_false]
              rfl

omit [DecidableEq φ] in
theorem pass_eq (hd : p.direction = .backward) (s : State N φ) (n : N) (inputs : Table N φ)
    (ledger : Ledger N) :
    pass p (p.progress { s with inputs, ledger }) n =
      (Checked.pass p s n inputs ledger).map p.progress := by
  unfold pass Checked.pass Checked.next Checked.leaving
  simp only [Problem.progress, Problem.solution_of_backward hd, hd]
  cases Checked.factAt inputs n with
  | error miss => rfl
  | ok after =>
    dsimp only [bind, Except.bind]
    cases Checked.factAt s.outputs n with
    | error miss => rfl
    | ok before =>
      dsimp only
      cases (p.analysis.transfer n after before).changed with
      | false =>
        simp only [Bool.false_eq_true, if_false, pure, Except.pure, Except.map, Problem.progress,
          Problem.solution_of_backward hd, List.append_nil]
        rfl
      | true =>
        simp only [if_true]
        cases Checked.inEdges p.graph n with
        | error miss => rfl
        | ok es =>
          simp only [pure, Except.pure, Except.map, Problem.progress,
            Problem.solution_of_backward hd, List.length_map, write_append]
          rfl

theorem visit_eq (hd : p.direction = .backward) (s : State N φ) (n : N) :
    visit p (p.progress s) n = (Checked.visit p s n).map (Except.map p.progress) :=
  visit_eq_of (receive_eq hd s n) (pass_eq hd s n)

omit [DecidableEq φ] in
theorem foldl_seed (hstart : p.graph.exit? = some start) (ns : List N) (s : Progress N φ) :
    ns.foldl (seed p) s = { s with
      facts :=
        { after := ns.foldl (fun t n => t.insert n
            (if n = start then p.analysis.boundary else p.analysis.initial)) s.facts.after
          before := ns.foldl (fun t n => t.insert n p.analysis.initial) s.facts.before }
      log := write p s.log (ns.flatMap fun n =>
        if n = start then p.analysis.boundaryMessages else []) } := by
  induction ns generalizing s with
  | nil => rfl
  | cons n ns ih =>
    rw [List.foldl_cons, ih, List.foldl_cons, List.foldl_cons, List.flatMap_cons, ← write_append]
    by_cases hn : n = start
    · subst hn
      have hexit : p.graph.isExit n = true := by simp [Graph.isExit, hstart]
      simp only [seed, hexit, if_true]
      rfl
    · have hexit : p.graph.isExit n = false := by simp [Graph.isExit, hstart, Ne.symm hn]
      simp only [seed, hexit, hn, if_false]
      rfl

omit [DecidableEq φ] in
theorem prepare_eq (hd : p.direction = .backward) :
    (prepare p).map (enqueue p .backward) = p.begin.map p.progress := by
  unfold prepare Problem.begin
  have hstart : p.start? = p.graph.exit? := by
    rw [Problem.start?, hd]
    rfl
  rw [hstart]
  cases hexit : p.graph.exit? with
  | none => rw [hd]; rfl
  | some start =>
    have hnodup : p.graph.nodes.Nodup := p.graph.nodes_nodup
    have hmem : start ∈ p.graph.nodes := p.graph.exit_mem start hexit
    dsimp only
    rw [foldl_seed hexit, flatMap_ite_eq hnodup hmem]
    simp only [Except.map, enqueue, write_append, Problem.progress, Problem.solution_of_backward hd,
      hd, Problem.beginAt]
    rfl

/-- Written out against the edges, the solver comes to what it comes to. -/
theorem solve_eq (hd : p.direction = .backward) (limit : Nat) :
    solve p limit = .ok (p.ending (p.solve limit)) :=
  solve_eq_of (prepare_eq hd) (visit_eq hd) limit

end Backward

/-- The solver that is written out for the direction of the analysis comes to what the solver comes
to, at every limit. -/
theorem TwoWay.solve_eq [DecidableEq φ] (p : Problem N φ) (limit : Nat) :
    TwoWay.solve p limit = .ok (p.ending (p.solve limit)) := by
  unfold TwoWay.solve
  cases hd : p.direction with
  | forward => exact Forward.solve_eq hd limit
  | backward => exact Backward.solve_eq hd limit

end FlowAnalysis
