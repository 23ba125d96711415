import FlowAnalysis.Graph.Build
import FlowAnalysis.Proofs.Solver.Lockstep

/-!
# Deciding edges once

Whether facts change along an edge may be decided once, and the decision be kept for later visits.
That makes no difference to the visits and to what is found, but the analysis is then asked about
each edge at most once, and in a run that comes to its end exactly once, except that it is never
asked about the edges over which facts come to the node at which the flow starts.

## Main definitions

- `Problem.deciding` — a problem whose edges are decided once, or anew each time
- `Ledger.Settled` — no question was asked twice, and every answer was kept
- `Problem.Informed` — the questions that have been asked before a visit

## Main statements

- `Problem.nodup_questions` — no question is asked twice, not even in a visit that fails
- `Problem.mem_questions_iff` — which questions are asked in a run that comes to its end
- `Problem.edges_decided_once` — the effects of deciding edges once
-/

namespace FlowAnalysis

variable {N φ : Type} [DecidableEq N]

/-- The edges about which the analysis was asked are those that are decided, and it was asked about
none of them twice. -/
structure Ledger.Settled (l : Ledger N) : Prop where
  asked_nodup : l.asked.toList.Nodup
  mem_asked_iff : ∀ e, e ∈ l.asked.toList ↔ (l.decisions.get? e).isSome

theorem Ledger.settled_empty : (∅ : Ledger N).Settled where
  asked_nodup := List.nodup_nil
  mem_asked_iff e := by
    constructor <;> intro h <;> cases h

namespace Problem

variable {p : Problem N φ} {s t : State N φ} {n : N} {limit : Nat} {out : Table N φ} {e : Edge N}
  {es : List (Edge N)} {x y : φ} {l l' : Ledger N}

/-- The problem with edges decided once, or anew each time. -/
def deciding (p : Problem N φ) (once : Bool) : Problem N φ :=
  { p with options := { p.options with decideEdgesOnce := once } }

theorem congruent_deciding (p : Problem N φ) (b c : Bool) :
    (p.deciding b).Congruent (p.deciding c) := ⟨rfl, rfl, rfl, rfl, rfl, rfl, rfl, rfl⟩

/-! ## Questions at one visit -/

theorem settled_consult (honce : p.options.decideEdgesOnce = true) (hl : l.Settled) (e : Edge N) :
    (p.consult e l).2.Settled ∧ e ∈ (p.consult e l).2.asked.toList := by
  unfold consult
  rw [if_pos honce]
  cases hd : l.decisions.get? e with
  | some known =>
    -- An answer is known only after a question.
    have he : e ∈ l.asked.toList := (hl.mem_asked_iff e).mpr (by rw [hd]; rfl)
    exact ⟨hl, he⟩
  | none =>
    have he : e ∉ l.asked.toList := by simp [hl.mem_asked_iff, hd]
    refine ⟨⟨?_, fun d => ?_⟩, by simp⟩
    · have hne : ∀ d ∈ l.asked.toList, d ≠ e := fun d hd hde => he (hde ▸ hd)
      rw [Trail.toList_push, List.nodup_append]
      exact ⟨hl.asked_nodup, by simp, fun d hd b hb => List.mem_singleton.mp hb ▸ hne d hd⟩
    · rw [Trail.toList_push, List.mem_append, List.mem_singleton, hl.mem_asked_iff,
        Table.get?_insert]
      by_cases hde : e = d
      · simp [hde]
      · simp [hde, Ne.symm hde]

/-- What a ledger has of questions and decisions after a fact has passed along an edge is what it
has after the question. -/
theorem settled_cross (honce : p.options.decideEdgesOnce = true) (hl : l.Settled)
    (h : p.cross out e l = .ok (x, l')) : l'.Settled ∧ e ∈ l'.asked.toList := by
  obtain ⟨hasked, hdecisions⟩ := ledger_of_cross h
  obtain ⟨⟨hnodup, hmem⟩, he⟩ := settled_consult honce hl e
  rw [← hasked] at hnodup he
  rw [← hasked, ← hdecisions] at hmem
  exact ⟨⟨hnodup, hmem⟩, he⟩

theorem settled_gather (honce : p.options.decideEdgesOnce = true) (hl : l.Settled)
    (h : p.gather out es x l = .ok (y, l')) : l'.Settled ∧ ∀ e ∈ es, e ∈ l'.asked.toList := by
  induction es generalizing x l with
  | nil =>
    obtain ⟨-, rfl⟩ := Prod.mk.inj (Except.ok.inj h)
    exact ⟨hl, by simp⟩
  | cons e es ih =>
    cases hc : p.cross out e l with
    | error err => simp [gather, hc] at h
    | ok r =>
      obtain ⟨z, m⟩ := r
      obtain ⟨hm, he⟩ := settled_cross honce hl hc
      simp only [gather, hc] at h
      obtain ⟨hl', hes⟩ := ih hm h
      have he' : e ∈ l'.asked.toList := by
        rw [asked_of_gather h]
        exact List.mem_append_left _ he
      exact ⟨hl', List.forall_mem_cons.mpr ⟨he', hes⟩⟩

theorem mem_of_mem_asks (h : e ∈ p.asks out es l) : e ∈ es := by
  induction es generalizing l with
  | nil => cases h
  | cons d es ih =>
    rw [asks, List.mem_append] at h
    obtain h | h := h
    · unfold inquiry at h
      split at h
      · cases h
      · exact List.mem_singleton.mp h ▸ List.mem_cons_self
    · split at h
      · exact List.mem_cons_of_mem d (ih h)
      · cases h

/-- No question comes up twice while facts are gathered, whether that fails or not. -/
theorem nodup_asks (honce : p.options.decideEdgesOnce = true) (hl : l.Settled) :
    (l.asked.toList ++ p.asks out es l).Nodup := by
  induction es generalizing l with
  | nil => simpa [asks] using hl.asked_nodup
  | cons e es ih =>
    rw [asks, ← List.append_assoc, ← asked_consult]
    cases hc : p.cross out e l with
    | error err =>
      -- The question came before the error.
      simpa using (settled_consult honce hl e).1.asked_nodup
    | ok r =>
      obtain ⟨x, m⟩ := r
      rw [← (ledger_of_cross hc).1]
      exact ih (settled_cross honce hl hc).1

/-- The analysis is asked about edges only over which facts come, and not where the flow starts. -/
theorem mem_asks_report (h : e ∈ (p.report s n).asks) :
    e ∈ p.graph.edges ∧ p.direction.head e = n ∧ p.start? ≠ some n := by
  rw [asks_report] at h
  split at h
  · cases h
  · next hn =>
    have he : e ∈ p.direction.arriving p.graph n := mem_of_mem_asks h
    obtain ⟨hmem, hhead⟩ := Direction.mem_arriving.mp he
    exact ⟨hmem, hhead, hn⟩

theorem nodup_asks_report (honce : p.options.decideEdgesOnce = true) (hl : s.ledger.Settled) :
    (s.ledger.asked.toList ++ (p.report s n).asks).Nodup := by
  rw [asks_report]
  split
  · simpa using hl.asked_nodup
  · exact nodup_asks honce hl

theorem settled_arrive (honce : p.options.decideEdgesOnce = true) (hl : s.ledger.Settled)
    (h : p.arrive s n = .ok (x, l)) :
    l.Settled ∧ (p.start? ≠ some n → ∀ e ∈ p.direction.arriving p.graph n, e ∈ l.asked.toList) := by
  unfold arrive at h
  split at h
  · next hn =>
    obtain ⟨-, rfl⟩ := Prod.mk.inj (Except.ok.inj h)
    exact ⟨hl, fun hne => absurd hn hne⟩
  · obtain ⟨hl', hes⟩ := settled_gather honce hl h
    exact ⟨hl', fun _ => hes⟩

/-! ## Questions during a run -/

/-- Before each visit: no question was asked twice, none is about an edge that leads to the start,
and none is missing about an edge that leads to a node off the worklist. -/
structure Informed (p : Problem N φ) (s : State N φ) : Prop where
  settled : s.ledger.Settled
  mem_edges : ∀ e ∈ s.ledger.asked.toList, e ∈ p.graph.edges ∧ p.start? ≠ some (p.direction.head e)
  mem_asked : ∀ e ∈ p.graph.edges, p.start? ≠ some (p.direction.head e) →
    p.direction.head e ∉ s.worklist → e ∈ s.ledger.asked.toList

theorem Informed.step (honce : p.options.decideEdgesOnce = true) (h : p.Informed s)
    (hw : s.worklist ≠ []) (ht : p.step s = .ok t) : p.Informed t := by
  obtain ⟨n, rest, hr⟩ := List.exists_cons_of_ne_nil hw
  have hasked := (trails_of_step hr ht).2
  obtain ⟨x, l, hx, rfl⟩ := exists_arrive_of_step hr ht
  obtain ⟨hl, harriving⟩ := settled_arrive honce h.settled hx
  refine ⟨hl, fun e he => ?_, fun e he hstart hnot => ?_⟩
  · rw [hasked, List.mem_append] at he
    obtain he | he := he
    · exact h.mem_edges e he
    · obtain ⟨hedge, rfl, hn⟩ := mem_asks_report he
      exact ⟨hedge, hn⟩
  · -- The edge leads to the node just visited, or to one that did not wait before either.
    have hrest : p.direction.head e ∉ rest := fun hmem => hnot (List.mem_append_left _ hmem)
    by_cases hen : p.direction.head e = n
    · refine harriving (hen ▸ hstart) e ?_
      exact Direction.mem_arriving.mpr ⟨he, hen⟩
    · have hold : e ∈ s.ledger.asked.toList := by
        apply h.mem_asked e he hstart
        rw [hr, List.mem_cons]
        exact not_or.mpr ⟨hen, hrest⟩
      rw [hasked]
      exact List.mem_append_left _ hold

theorem Reachable.informed (honce : p.options.decideEdgesOnce = true) (h : p.Reachable s) :
    p.Informed s := by
  induction h with
  | begin hs =>
    obtain ⟨start, -, rfl⟩ := begin_eq_ok hs
    refine ⟨Ledger.settled_empty, ?_, ?_⟩
    · intro e he
      cases he
    · -- Before the first visit all nodes wait.
      intro e he _ hnot
      exact absurd (p.direction.head_mem he) hnot
  | step hs hw ht ih => exact ih.step honce hw ht

theorem nodup_reports (honce : p.options.decideEdgesOnce = true) (h : p.Reachable s) (limit : Nat) :
    (s.ledger.asked.toList ++ (p.reports limit s).flatMap Report.asks).Nodup := by
  induction limit generalizing s with
  | zero => simpa [reports] using (h.informed honce).settled.asked_nodup
  | succ limit ih =>
    cases hr : s.worklist with
    | nil =>
      simpa [reports_of_worklist_eq_nil hr] using (h.informed honce).settled.asked_nodup
    | cons n rest =>
      have hw : s.worklist ≠ [] := by simp [hr]
      cases ht : p.step s with
      | error err =>
        rw [reports_succ_of_error hr ht, List.flatMap_singleton]
        exact nodup_asks_report honce (h.informed honce).settled
      | ok t =>
        rw [reports_succ_of_step hr ht, List.flatMap_cons, ← List.append_assoc,
          ← (trails_of_step hr ht).2]
        exact ih (h.step hw ht)

/-- No question is asked twice in a run. -/
theorem nodup_questions (honce : p.options.decideEdgesOnce = true) (limit : Nat) :
    (p.questions limit).Nodup := by
  cases hs : p.begin with
  | error err => simp [questions, history, hs]
  | ok s =>
    simp only [questions, history, hs]
    exact (List.nodup_append.mp (nodup_reports honce (.begin hs) limit)).2.1

/-- In a run that comes to its end the analysis was asked about the edges that do not lead to the
start, and about no others. -/
theorem mem_questions_iff (honce : p.options.decideEdgesOnce = true)
    (h : p.solve limit = .solved t) (e : Edge N) :
    e ∈ p.questions limit ↔ e ∈ p.graph.edges ∧ p.start? ≠ some (p.direction.head e) := by
  rw [← (trails_of_solve_eq_solved h).2]
  obtain ⟨s, hs, hw, rfl⟩ := solve_eq_solved h
  have hinformed := hs.informed honce
  constructor
  · exact hinformed.mem_edges e
  · rintro ⟨he, hstart⟩
    exact hinformed.mem_asked e he hstart (by simp [hw])

/-- In a run that comes to its end the answers to the questions are kept, and nothing else. -/
theorem get?_decisions (honce : p.options.decideEdgesOnce = true)
    (h : p.solve limit = .solved t) (e : Edge N) :
    t.ledger.decisions.get? e =
      if e ∈ p.questions limit then some (p.analysis.needsEdgeTransfer e) else none := by
  rw [← (trails_of_solve_eq_solved h).2]
  obtain ⟨s, hs, hw, rfl⟩ := solve_eq_solved h
  have hiff := (hs.informed honce).settled.mem_asked_iff e
  show s.ledger.decisions.get? e = if e ∈ s.ledger.asked.toList then _ else _
  cases hd : s.ledger.decisions.get? e with
  | none => simp [hiff, hd]
  | some known => simp [hiff, hd, hs.coherent.agrees e known hd]

/-- Whether edges are decided once or anew each time, the same nodes are visited, the same visits
report changes, and the run comes to the same end: to the same error, or to the same facts.  If they
are decided once, no question is asked twice; and in a run that comes to its end exactly one is
asked about every edge that does not lead to the start, while none is asked about the others.  Edges
of different kinds between the same nodes are different edges here, each with its own answer. -/
theorem edges_decided_once (p : Problem N φ) :
    (∀ limit,
      ((p.deciding true).history limit).map Report.effect =
        ((p.deciding false).history limit).map Report.effect ∧
      ((p.deciding true).solve limit).InStep id ((p.deciding false).solve limit)) ∧
    (∀ s t : State N φ, s.InStep t → (p.deciding true).solution s = (p.deciding false).solution t) ∧
    (∀ limit, ((p.deciding true).questions limit).Nodup) ∧
    ∀ limit t, (p.deciding true).solve limit = .solved t →
      t.ledger.asked.toList = (p.deciding true).questions limit ∧ ∀ e,
        ((p.deciding true).questions limit).count e =
          (if e ∈ p.graph.edges ∧ p.start? ≠ some (p.direction.head e) then 1 else 0) ∧
        t.ledger.decisions.get? e =
          if e ∈ p.graph.edges ∧ p.start? ≠ some (p.direction.head e) then
            some (p.analysis.needsEdgeTransfer e)
          else none := by
  have h := congruent_deciding p true false
  refine ⟨fun limit => ⟨h.map_effect_history limit, ?_⟩, fun s t hst => ?_,
    nodup_questions rfl, fun limit t ht => ⟨(trails_of_solve_eq_solved ht).2, fun e => ?_⟩⟩
  · exact h.solve_inStep (fun _ => rfl) rfl limit
  · rw [solution, solution, hst.inputs_eq, hst.outputs_eq]
    rfl
  · have hmem := mem_questions_iff rfl ht e
    have hnodup : ((p.deciding true).questions limit).Nodup := nodup_questions rfl limit
    have hcount := hnodup.count (a := e)
    have hdecision := get?_decisions rfl ht e
    simp only [hmem] at hcount hdecision
    exact ⟨hcount, hdecision⟩

/-- Two edges of different kinds lead on from the entry, and one leads back; facts change along
jumps. -/
def twoWays : Problem Nat Bool where
  graph := (Graph.build? [.entry 0, .node 1, .edge ⟨.fallThrough, 0, 1⟩, .edge ⟨.goto, 0, 1⟩,
    .edge ⟨.goto, 1, 0⟩]).getD ∅
  analysis :=
    { id := "twoWays", direction := .forward, boundary := true, initial := false
      merge := fun x target => x || target
      transfer := fun _ x recorded => .ofFact x recorded []
      needsEdgeTransfer := fun e => e.kind = .goto
      edgeTransfer := fun _ x => some (!x) }

theorem edges_decided_once_twoWays :
    ∃ s t, (twoWays.deciding true).solve 5 = .solved s ∧
      (twoWays.deciding false).solve 5 = .solved t ∧
      (twoWays.deciding true).solution s = (twoWays.deciding false).solution t ∧
      ((twoWays.deciding true).questions 5).count ⟨.fallThrough, 0, 1⟩ = 1 ∧
      s.ledger.decisions.get? ⟨.fallThrough, 0, 1⟩ = some false ∧
      ((twoWays.deciding true).questions 5).count ⟨.goto, 0, 1⟩ = 1 ∧
      s.ledger.decisions.get? ⟨.goto, 0, 1⟩ = some true ∧
      ((twoWays.deciding true).questions 5).count ⟨.goto, 1, 0⟩ = 0 := by
  obtain ⟨hruns, hsolutions, -, hquestions⟩ := edges_decided_once twoWays
  obtain ⟨s, hs⟩ : ∃ s, (twoWays.deciding true).solve 5 = .solved s := ⟨_, rfl⟩
  obtain ⟨t, ht⟩ : ∃ t, (twoWays.deciding false).solve 5 = .solved t := ⟨_, rfl⟩
  obtain ⟨-, hstep⟩ := hruns 5
  rw [hs, ht] at hstep
  obtain ⟨-, hasked⟩ := hquestions 5 s hs
  obtain ⟨hfall, hfall'⟩ := hasked ⟨.fallThrough, 0, 1⟩
  obtain ⟨hjump, hjump'⟩ := hasked ⟨.goto, 0, 1⟩
  obtain ⟨hback, -⟩ := hasked ⟨.goto, 1, 0⟩
  rw [if_pos (by decide)] at hfall hfall' hjump hjump'
  rw [if_neg (by decide)] at hback
  exact ⟨s, t, hs, ht, hsolutions s t hstep, hfall, hfall', hjump, hjump', hback⟩

end Problem

end FlowAnalysis
