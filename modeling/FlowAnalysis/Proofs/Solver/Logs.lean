import FlowAnalysis.Proofs.Solver.Schedule

/-!
# Logs of runs

The solver carries its log along in its state, and the settings say which messages it writes there.
Two runs under different settings keep in step nevertheless: at any time their states differ in the
log only, and the log of the run that keeps less is what its settings leave of the other log.

## Main definitions

- `State.keeping`, `Outcome.keeping` — a state and an outcome with some messages of the log only
- `Outcome.log` — the messages that were kept until the end
- `Problem.withDiagnostics` — a problem with other settings for the messages

## Main statements

- `Problem.step_withDiagnostics` — a visit under settings that keep less
- `Problem.solve_withDiagnostics` — what becomes of a whole run under settings that keep less
- `Problem.accounts_withDiagnostics` — the visits are the same under all settings
-/

namespace FlowAnalysis

namespace Trail

variable {α : Type}

/-- The elements that meet a condition. -/
def filter (keep : α → Bool) (t : Trail α) : Trail α := ⟨t.newestFirst.filter keep⟩

@[simp]
theorem toList_filter (keep : α → Bool) (t : Trail α) :
    (t.filter keep).toList = t.toList.filter keep := List.filter_reverse.symm

@[simp]
theorem filter_append (keep : α → Bool) (t : Trail α) (as : List α) :
    (t.append as).filter keep = (t.filter keep).append (as.filter keep) :=
  ext_toList (by simp)

end Trail

variable {N φ : Type}

/-- A state with those messages of its log only that meet a condition. -/
def State.keeping (keep : Message → Bool) (s : State N φ) : State N φ :=
  { s with log := s.log.filter keep }

namespace Outcome

/-- The messages that were kept until the end. -/
def log : Outcome N φ → Trail Message
  | solved s | unsettled s => s.log
  | failed _ log => log

/-- An outcome with those messages of its log only that meet a condition. -/
def keeping (keep : Message → Bool) : Outcome N φ → Outcome N φ
  | solved s => solved (s.keeping keep)
  | failed err log => failed err (log.filter keep)
  | unsettled s => unsettled (s.keeping keep)

@[simp]
theorem log_keeping (keep : Message → Bool) (o : Outcome N φ) :
    (o.keeping keep).log = o.log.filter keep := by
  cases o <;> rfl

end Outcome

namespace Problem

variable [DecidableEq N] {p : Problem N φ} {s : State N φ} {d : Diagnostics}

/-- A problem with other settings for the messages. -/
def withDiagnostics (p : Problem N φ) (d : Diagnostics) : Problem N φ :=
  { p with options := { p.options with diagnostics := d } }

/-- A problem keeps every message that some settings keep. -/
def KeepsAll (p : Problem N φ) (d : Diagnostics) : Prop :=
  ∀ msg, d.shows msg = true → p.options.diagnostics.shows msg = true

theorem shown_withDiagnostics (h : p.KeepsAll d) (ms : List Message) :
    (p.withDiagnostics d).shown ms = (p.shown ms).filter d.shows := by
  simp only [shown, Diagnostics.shown, withDiagnostics, List.filter_filter]
  refine List.filter_congr fun msg _ => ?_
  cases hmsg : d.shows msg with
  | false => rfl
  | true => rw [h msg hmsg, Bool.and_self]

/-! ## Visits -/

theorem gather_withDiagnostics (d : Diagnostics) (out : Table N φ) (es : List (Edge N)) (x : φ)
    (l : Ledger N) : (p.withDiagnostics d).gather out es x l = p.gather out es x l := by
  induction es generalizing x l with
  | nil => rfl
  | cons e es ih =>
    have hcross : (p.withDiagnostics d).cross out e l = p.cross out e l := rfl
    simp only [gather, hcross]
    cases p.cross out e l with
    | error err => rfl
    | ok r => exact ih _ _

/-- What comes to a node depends neither on the settings nor on the log. -/
theorem arrive_withDiagnostics (d : Diagnostics) (keep : Message → Bool) (s : State N φ) (n : N) :
    (p.withDiagnostics d).arrive (s.keeping keep) n = p.arrive s n := by
  by_cases hn : p.start? = some n
  · exact (if_pos hn).trans (if_pos hn).symm
  · exact (if_neg hn).trans ((gather_withDiagnostics d _ _ _ _).trans (if_neg hn).symm)

theorem pass_withDiagnostics (h : p.KeepsAll d) (s : State N φ) (n : N) (x : φ) (l : Ledger N) :
    (p.withDiagnostics d).pass (s.keeping d.shows) n x l = (p.pass s n x l).keeping d.shows := by
  simp only [pass, State.keeping, Trail.filter_append, ← shown_withDiagnostics h]
  rfl

/-- A visit under settings that keep less comes to the same state, but for the messages that are not
kept. -/
theorem step_withDiagnostics (h : p.KeepsAll d) (s : State N φ) :
    (p.withDiagnostics d).step (s.keeping d.shows) = (p.step s).map (State.keeping d.shows) := by
  obtain ⟨inputs, outputs, worklist, ledger, visited, log⟩ := s
  cases worklist with
  | nil => rfl
  | cons n rest =>
    let s : State N φ := ⟨inputs, outputs, rest, ledger, visited, log⟩
    change (p.withDiagnostics d).visit (s.keeping d.shows) n = (p.visit s n).map _
    unfold visit
    rw [arrive_withDiagnostics]
    cases p.arrive s n with
    | error err => rfl
    | ok r => exact congrArg Except.ok (pass_withDiagnostics h s n r.1 r.2)

theorem settle_withDiagnostics (h : p.KeepsAll d) (s : State N φ) :
    (p.withDiagnostics d).settle (s.keeping d.shows) = (p.settle s).keeping d.shows := by
  simp only [settle, State.keeping, Trail.filter_append, ← shown_withDiagnostics h]

theorem begin_withDiagnostics (h : p.KeepsAll d) :
    (p.withDiagnostics d).begin = p.begin.map (State.keeping d.shows) := by
  have hstart : (p.withDiagnostics d).start? = p.start? := rfl
  unfold begin
  rw [hstart]
  cases p.start? with
  | none => rfl
  | some start =>
    refine congrArg Except.ok ?_
    simp only [beginAt, State.keeping, Trail.filter_append, ← shown_withDiagnostics h]
    rfl

/-! ## Runs -/

theorem run_withDiagnostics (h : p.KeepsAll d) (limit : Nat) (s : State N φ) :
    (p.withDiagnostics d).run limit (s.keeping d.shows) =
      (p.run limit s).keeping d.shows := by
  induction limit generalizing s with
  | zero =>
    have hworklist : (s.keeping d.shows).worklist = s.worklist := rfl
    simp only [run, hworklist, settle_withDiagnostics h]
    split <;> rfl
  | succ limit ih =>
    by_cases hw : s.worklist = []
    · rw [run_of_worklist_eq_nil (s := s.keeping d.shows) hw, run_of_worklist_eq_nil hw,
        settle_withDiagnostics h]
      rfl
    · have hstep := step_withDiagnostics h s
      cases ht : p.step s with
      | error err =>
        rw [ht] at hstep
        rw [run_succ_of_error (s := s.keeping d.shows) hw hstep, run_succ_of_error hw ht]
        rfl
      | ok t =>
        rw [ht] at hstep
        rw [run_succ_of_step (s := s.keeping d.shows) hw hstep, run_succ_of_step hw ht]
        exact ih t

/-- A run under settings that keep less comes to the same end, but for the messages that are not
kept. -/
theorem solve_withDiagnostics (h : p.KeepsAll d) (limit : Nat) :
    (p.withDiagnostics d).solve limit = (p.solve limit).keeping d.shows := by
  unfold solve
  rw [begin_withDiagnostics h]
  cases p.begin with
  | error err => rfl
  | ok s => exact run_withDiagnostics h limit s

/-! ## Visits of runs -/

theorem asks_withDiagnostics (d : Diagnostics) (out : Table N φ) (es : List (Edge N))
    (l : Ledger N) : (p.withDiagnostics d).asks out es l = p.asks out es l := by
  induction es generalizing l with
  | nil => rfl
  | cons e es ih =>
    have hcross : (p.withDiagnostics d).cross out e l = p.cross out e l := rfl
    have hinquiry : (p.withDiagnostics d).inquiry e l = p.inquiry e l := rfl
    simp only [asks, hcross, hinquiry]
    cases p.cross out e l with
    | error err => rfl
    | ok r => exact congrArg _ (ih r.2)

theorem report_withDiagnostics (d : Diagnostics) (keep : Message → Bool) (s : State N φ) (n : N) :
    (p.withDiagnostics d).report (s.keeping keep) n = p.report s n := by
  simp only [report, arrive_withDiagnostics, asks_withDiagnostics]
  rfl

theorem remarks_withDiagnostics (d : Diagnostics) (keep : Message → Bool) (s : State N φ) (n : N) :
    (p.withDiagnostics d).remarks (s.keeping keep) n = p.remarks s n := by
  simp only [remarks, arrive_withDiagnostics]
  rfl

theorem accountsFrom_withDiagnostics (h : p.KeepsAll d) (limit : Nat) (s : State N φ) :
    (p.withDiagnostics d).accountsFrom limit (s.keeping d.shows) = p.accountsFrom limit s := by
  induction limit generalizing s with
  | zero => rfl
  | succ limit ih =>
    have hstep := step_withDiagnostics h s
    have hworklist : (s.keeping d.shows).worklist = s.worklist := rfl
    simp only [accountsFrom, hworklist, hstep, report_withDiagnostics, remarks_withDiagnostics]
    cases s.worklist with
    | nil => rfl
    | cons n rest =>
      cases p.step s with
      | error err => rfl
      | ok t => exact congrArg _ (ih t)

theorem accounts_withDiagnostics_of_keepsAll (h : p.KeepsAll d) (limit : Nat) :
    (p.withDiagnostics d).accounts limit = p.accounts limit := by
  unfold accounts
  rw [begin_withDiagnostics h]
  cases p.begin with
  | error err => rfl
  | ok s => exact accountsFrom_withDiagnostics h limit s

/-- The visits are the same under all settings, and so is what the analysis has to say on them. -/
theorem accounts_withDiagnostics (p : Problem N φ) (d : Diagnostics) (limit : Nat) :
    (p.withDiagnostics d).accounts limit = p.accounts limit := by
  -- Settings that keep nothing keep less than any others.
  have hnone : ∀ q : Problem N φ, q.KeepsAll {} := fun q msg h => by simp [Diagnostics.shows] at h
  rw [← accounts_withDiagnostics_of_keepsAll (hnone p),
    ← accounts_withDiagnostics_of_keepsAll (hnone (p.withDiagnostics d))]
  rfl

end Problem

end FlowAnalysis
